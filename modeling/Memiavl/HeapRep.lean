import Memiavl.MemNode

/-! Trees in the heap. `Rep h n t F` says that the nodes below `n` form the tree `t` and
that `F` are the addresses of its cells. Every update comes with the set of cells it may
change, so that a tree with other cells is still there afterwards. -/
namespace Memiavl

open HeapM Option

namespace Node

/-- The cell of a node, if it has one. -/
def self : Node → Finset ℕ
  | .mem a => {a}
  | .persisted _ => ∅

@[simp] theorem self_mem (a : ℕ) : (Node.mem a).self = {a} := rfl
@[simp] theorem self_persisted (p : PersistedNode) : (Node.persisted p).self = ∅ := rfl

def IsLeaf (n : Node) (h : Heap) (key value : Bytes) (s : Stamp) : Prop := match n with
  | .mem a => ∃ c, h.read a = some c ∧ c.height = 0 ∧ c.size = 1 ∧ c.key = key ∧
      c.value = some value ∧ s = ⟨c.version,none⟩
  | .persisted p => p.isLeaf = true ∧ p.snapshot.leafKeyValue p.index = some (key,value) ∧
      ∃ v d, p.version = some v ∧ p.hash = some d ∧ s = ⟨v,some d⟩

/-- The fields of a branch; what the children hold is left open. -/
def IsBranch (n : Node) (h : Heap) (height size : ℕ) (key : Bytes) (s : Stamp) (l r : Node) :
    Prop := match n with
  | .mem a => ∃ c, h.read a = some c ∧ c.height = height ∧ height ≠ 0 ∧ c.size = size ∧
      c.key = key ∧ c.left = some l ∧ c.right = some r ∧ s = ⟨c.version,none⟩
  | .persisted p => p.isLeaf = false ∧ p.height.map UInt8.toNat = some height ∧
      p.size = some size ∧ p.key = some key ∧
      (∃ pl pr, p.left = some pl ∧ p.right = some pr ∧ l = .persisted pl ∧ r = .persisted pr) ∧
      ∃ v d, p.version = some v ∧ p.hash = some d ∧ s = ⟨v,some d⟩

/-- A hash in the cell of the node is the given one. -/
def CacheOk (n : Node) (h : Heap) (d : Digest) : Prop := match n with
  | .mem a => ∀ c, h.read a = some c → ∀ x ∈ c.hash, x = d
  | .persisted _ => True

end Node

/-- The nodes below `n` form the tree, in cells `F`, no cell used twice. -/
def Rep (h : Heap) : Node → Mixed → Finset ℕ → Prop
  | n, .leaf key value s, F =>
    n.IsLeaf h key value s ∧ n.CacheOk h (Mixed.hash (.leaf key value s)) ∧ F = n.self
  | n, .branch height size key s left right, F => ∃ l r Fl Fr,
    n.IsBranch h height size key s l r ∧ Rep h l left Fl ∧ Rep h r right Fr ∧ Disjoint Fl Fr ∧
    Disjoint n.self (Fl ∪ Fr) ∧ n.CacheOk h (Mixed.hash (.branch height size key s left right)) ∧
    F = n.self ∪ (Fl ∪ Fr)

section
variable {h : Heap} {n l r : Node} {height size : ℕ} {key value : Bytes} {s : Stamp}

theorem leafKey_of_leafKeyValue {sn : Snapshot} {i : UInt32} {k v : Bytes}
    (hkv : sn.leafKeyValue i = some (k,v)) : sn.leafKey i = some k := by
  simp only [Snapshot.leafKeyValue,Snapshot.leafKey,bind_eq_bind,bind_eq_some_iff,
    some.injEq,Prod.mk.injEq,UInt32.toNat_toUInt64] at hkv ⊢
  obtain ⟨leaf,hleaf,k',hk',_,_,_,_,rfl,_⟩ := hkv
  exact ⟨leaf,hleaf,hk'⟩

section
variable (hn : n.IsLeaf h key value s)
include hn

theorem Node.IsLeaf.key_run : n.key h = some (key,h) := by
  cases n with
  | mem a =>
    obtain ⟨c,hc,-,-,rfl,-⟩ := hn
    simp [Node.key,run_bind,load_of hc]
  | persisted p =>
    obtain ⟨hp,hkv,-⟩ := hn
    simp [Node.key,PersistedNode.key,hp,leafKey_of_leafKeyValue hkv]

theorem Node.IsLeaf.isLeaf_run : n.isLeaf h = some (true,h) := by
  cases n with
  | mem a =>
    obtain ⟨c,hc,h0,-⟩ := hn
    simp [Node.isLeaf,run_bind,load_of hc,h0]
  | persisted p => simp [Node.isLeaf,hn.1]

theorem Node.IsLeaf.value_run : n.value h = some (some value,h) := by
  cases n with
  | mem a =>
    obtain ⟨c,hc,-,-,-,hv,-⟩ := hn
    simp [Node.value,run_bind,load_of hc,hv]
  | persisted p => simp [Node.value,run_bind,PersistedNode.value,hn.1,hn.2.1]

theorem Node.IsLeaf.height_run : n.height h = some (0,h) := by
  cases n with
  | mem a =>
    obtain ⟨c,hc,h0,-⟩ := hn
    simp [Node.height,run_bind,load_of hc,h0]
  | persisted p => simp [Node.height,run_bind,PersistedNode.height,hn.1]

theorem Node.IsLeaf.size_run : n.size h = some (1,h) := by
  cases n with
  | mem a =>
    obtain ⟨c,hc,-,h1,-⟩ := hn
    simp [Node.size,run_bind,load_of hc,h1]
  | persisted p => simp [Node.size,PersistedNode.size,hn.1]

end

section
variable (hn : n.IsBranch h height size key s l r)
include hn

theorem Node.IsBranch.key_run : n.key h = some (key,h) := by
  cases n with
  | mem a =>
    obtain ⟨c,hc,-,-,-,rfl,-⟩ := hn
    simp [Node.key,run_bind,load_of hc]
  | persisted p => simp [Node.key,hn.2.2.2.1]

theorem Node.IsBranch.isLeaf_run : n.isLeaf h = some (false,h) := by
  cases n with
  | mem a =>
    obtain ⟨c,hc,rfl,h0,-⟩ := hn
    simp [Node.isLeaf,run_bind,load_of hc,h0]
  | persisted p => simp [Node.isLeaf,hn.1]

theorem Node.IsBranch.height_run : n.height h = some (height,h) := by
  cases n with
  | mem a =>
    obtain ⟨c,hc,rfl,-⟩ := hn
    simp [Node.height,run_bind,load_of hc]
  | persisted p =>
    obtain ⟨x,hx,rfl⟩ := map_eq_some_iff.mp hn.2.1
    simp [Node.height,run_bind,hx]

theorem Node.IsBranch.size_run : n.size h = some (size,h) := by
  cases n with
  | mem a =>
    obtain ⟨c,hc,-,-,rfl,-⟩ := hn
    simp [Node.size,run_bind,load_of hc]
  | persisted p => simp [Node.size,hn.2.2.1]

theorem Node.IsBranch.left_run : n.left h = some (l,h) := by
  cases n with
  | mem a =>
    obtain ⟨c,hc,-,-,-,-,hl,-⟩ := hn
    simp [Node.left,run_bind,load_of hc,hl]
  | persisted p =>
    obtain ⟨hp,-,-,-,⟨pl,pr,hl,hr,rfl,rfl⟩,-⟩ := hn
    simp [Node.left,run_bind,hp,hl]

theorem Node.IsBranch.right_run : n.right h = some (r,h) := by
  cases n with
  | mem a =>
    obtain ⟨c,hc,-,-,-,-,-,hr,-⟩ := hn
    simp [Node.right,run_bind,load_of hc,hr]
  | persisted p =>
    obtain ⟨hp,-,-,-,⟨pl,pr,hl,hr,rfl,rfl⟩,-⟩ := hn
    simp [Node.right,run_bind,hp,hr]

end

end

section
variable {h h' : Heap} {n : Node} {t : Mixed} {F : Finset ℕ}

variable {key : Bytes} {s : Stamp} {height size : ℕ} {l r : Node}

theorem Node.IsLeaf.congr {value : Bytes} (hn : n.IsLeaf h key value s)
    (hs : ∀ a ∈ n.self, h'.read a = h.read a) : n.IsLeaf h' key value s := by
  cases n with
  | mem a => simpa only [Node.IsLeaf,hs a (by simp)] using hn
  | persisted p => exact hn

theorem Node.IsBranch.congr (hn : n.IsBranch h height size key s l r)
    (hs : ∀ a ∈ n.self, h'.read a = h.read a) : n.IsBranch h' height size key s l r := by
  cases n with
  | mem a => simpa only [Node.IsBranch,hs a (by simp)] using hn
  | persisted p => exact hn

theorem Node.CacheOk.congr {d : Digest} (hn : n.CacheOk h d)
    (hs : ∀ a ∈ n.self, h'.read a = h.read a) : n.CacheOk h' d := by
  cases n with
  | mem a => simpa only [Node.CacheOk,hs a (by simp)] using hn
  | persisted p => exact hn

theorem Node.IsBranch.self_lt (hn : n.IsBranch h height size key s l r) {a : ℕ} (ha : a ∈ n.self) :
    a < h.size := by
  cases n with
  | mem b =>
    obtain ⟨c,hc,-⟩ := hn
    rw [Finset.mem_singleton.mp ha]
    exact CellHeap.read_lt hc
  | persisted p => simp at ha

theorem Node.IsBranch.stamp_unique {height' size' : ℕ} {key' : Bytes} {s' : Stamp} {l' r' : Node}
    (hn : n.IsBranch h height size key s l r) (hn' : n.IsBranch h height' size' key' s' l' r') :
    s = s' := by
  cases n with
  | mem a =>
    obtain ⟨c,hc,-,-,-,-,-,-,rfl⟩ := hn
    obtain ⟨c',hc',-,-,-,-,-,-,rfl⟩ := hn'
    rw [some.inj (hc.symm.trans hc')]
  | persisted p =>
    obtain ⟨-,-,-,-,-,v,d,hv,hd,rfl⟩ := hn
    obtain ⟨-,-,-,-,-,v',d',hv',hd',rfl⟩ := hn'
    rw [some.inj (hv.symm.trans hv'),some.inj (hd.symm.trans hd')]

section
variable (ht : Rep h n t F)
include ht

theorem Rep.congr (hs : ∀ a ∈ F, h'.read a = h.read a) : Rep h' n t F := by
  induction t generalizing n F with
  | leaf key value s =>
    obtain ⟨hn,hc,rfl⟩ := ht
    exact ⟨hn.congr hs,hc.congr hs,rfl⟩
  | branch height size key s left right ihl ihr =>
    obtain ⟨l,r,Fl,Fr,hn,hl,hr,hd,hself,hc,rfl⟩ := ht
    have hself' : ∀ a ∈ n.self, h'.read a = h.read a := fun a ha => hs a (by simp [ha])
    exact ⟨l,r,Fl,Fr,hn.congr hself',ihl hl fun a ha => hs a (by simp [ha]),
      ihr hr fun a ha => hs a (by simp [ha]),hd,hself,hc.congr hself',rfl⟩

theorem Rep.lt {a : ℕ} (ha : a ∈ F) : a < h.size := by
  induction t generalizing n F with
  | leaf key value s =>
    obtain ⟨hn,-,rfl⟩ := ht
    cases n with
    | mem b =>
      obtain ⟨c,hc,-⟩ := hn
      rw [Finset.mem_singleton.mp ha]
      exact CellHeap.read_lt hc
    | persisted p => simp at ha
  | branch height size key s left right ihl ihr =>
    obtain ⟨l,r,Fl,Fr,hn,hl,hr,-,-,-,rfl⟩ := ht
    rcases Finset.mem_union.mp ha with ha | ha
    · exact hn.self_lt ha
    rcases Finset.mem_union.mp ha with ha | ha
    · exact ihl hl ha
    · exact ihr hr ha

theorem Rep.self_subset : n.self ⊆ F := by
  cases t with
  | leaf key value s => exact ht.2.2.symm.subset
  | branch height size key s left right =>
    obtain ⟨l,r,Fl,Fr,-,-,-,-,-,-,rfl⟩ := ht
    exact Finset.subset_union_left

theorem Rep.height_run : n.height h = some (t.height,h) := by
  cases t with
  | leaf key value s => exact ht.1.height_run
  | branch height size key s left right =>
    obtain ⟨l,r,Fl,Fr,hn,-⟩ := ht
    exact hn.height_run

theorem Rep.size_run : n.size h = some (t.size,h) := by
  cases t with
  | leaf key value s => exact ht.1.size_run
  | branch height size key s left right =>
    obtain ⟨l,r,Fl,Fr,hn,-⟩ := ht
    exact hn.size_run

theorem Rep.unique {t' : Mixed} {F' : Finset ℕ} (ht' : Rep h n t' F') : t = t' ∧ F = F' := by
  induction t generalizing n F t' F' with
  | leaf key value s =>
    obtain ⟨hn,-,rfl⟩ := ht
    cases t' with
    | leaf key' value' s' =>
      obtain ⟨hn',-,rfl⟩ := ht'
      cases n with
      | mem a =>
        obtain ⟨c,hc,-,-,rfl,hv,rfl⟩ := hn
        obtain ⟨c',hc',-,-,rfl,hv',rfl⟩ := hn'
        obtain rfl := some.inj (hc.symm.trans hc')
        simp_all
      | persisted p =>
        obtain ⟨-,hkv,v,d,hv,hd,rfl⟩ := hn
        obtain ⟨-,hkv',v',d',hv',hd',rfl⟩ := hn'
        simp_all
    | branch height size key' s' left right =>
      obtain ⟨l,r,Fl,Fr,hn',-⟩ := ht'
      have h1 := hn.isLeaf_run.symm.trans hn'.isLeaf_run
      simp at h1
  | branch height size key s left right ihl ihr =>
    obtain ⟨l,r,Fl,Fr,hn,hl,hr,-,-,-,rfl⟩ := ht
    cases t' with
    | leaf key' value' s' =>
      have h1 := hn.isLeaf_run.symm.trans ht'.1.isLeaf_run
      simp at h1
    | branch height' size' key' s' left' right' =>
      obtain ⟨l',r',Fl',Fr',hn',hl',hr',-,-,-,rfl⟩ := ht'
      have h1 : l = l' := by simpa using hn.left_run.symm.trans hn'.left_run
      have h2 : r = r' := by simpa using hn.right_run.symm.trans hn'.right_run
      have h3 : height = height' := by simpa using hn.height_run.symm.trans hn'.height_run
      have h4 : size = size' := by simpa using hn.size_run.symm.trans hn'.size_run
      have h5 : key = key' := by simpa using hn.key_run.symm.trans hn'.key_run
      have h6 : s = s' := hn.stamp_unique hn'
      subst h1 h2 h3 h4 h5 h6
      obtain ⟨rfl,rfl⟩ := ihl hl hl'
      obtain ⟨rfl,rfl⟩ := ihr hr hr'
      exact ⟨rfl,rfl⟩

end

end

end Memiavl
