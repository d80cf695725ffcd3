import Mathlib

/-! Height-balanced search trees with the entries at the leaves.
A branch stores its height, its number of leaves, the smallest key of its right
subtree and an annotation. An update rewrites the nodes of one search path; every
rewritten node receives the annotation of that update. -/

/-- Keys `κ`, values `ν`, and an annotation `α` on every node. -/
inductive LeafTree (κ ν α : Type)
  | leaf (key : κ) (value : ν) (ann : α)
  | branch (height size : ℕ) (key : κ) (ann : α) (left right : LeafTree κ ν α)
  deriving DecidableEq, Repr

namespace LeafTree

variable {κ ν α β : Type}

def height : LeafTree κ ν α → ℕ
  | leaf .. => 0
  | branch h .. => h

def size : LeafTree κ ν α → ℕ
  | leaf .. => 1
  | branch _ s .. => s

def ann : LeafTree κ ν α → α
  | leaf _ _ a => a
  | branch _ _ _ a .. => a

def setAnn (a : α) : LeafTree κ ν α → LeafTree κ ν α
  | leaf k v _ => leaf k v a
  | branch h s k _ l r => branch h s k a l r

def toList : LeafTree κ ν α → List (κ × ν)
  | leaf k v _ => [(k,v)]
  | branch _ _ _ _ l r => l.toList ++ r.toList

def keys : LeafTree κ ν α → List κ
  | leaf k .. => [k]
  | branch _ _ _ _ l r => l.keys ++ r.keys

def minKey : LeafTree κ ν α → κ
  | leaf k .. => k
  | branch _ _ _ _ l _ => l.minKey

def leafCount : LeafTree κ ν α → ℕ
  | leaf .. => 1
  | branch _ _ _ _ l r => l.leafCount + r.leafCount

def mapAnn (f : α → β) : LeafTree κ ν α → LeafTree κ ν β
  | leaf k v a => leaf k v (f a)
  | branch h s k a l r => branch h s k (f a) (l.mapAnn f) (r.mapAnn f)

section
variable (f : α → β) (h s : ℕ) (k : κ) (v : ν) (a : α) (l r t : LeafTree κ ν α)

@[simp] theorem height_leaf : (leaf k v a).height = 0 := rfl
@[simp] theorem height_branch : (branch h s k a l r).height = h := rfl
@[simp] theorem size_leaf : (leaf k v a).size = 1 := rfl
@[simp] theorem size_branch : (branch h s k a l r).size = s := rfl
@[simp] theorem keys_leaf : (leaf k v a).keys = [k] := rfl
@[simp] theorem keys_branch : (branch h s k a l r).keys = l.keys ++ r.keys := rfl
@[simp] theorem minKey_leaf : (leaf k v a).minKey = k := rfl
@[simp] theorem minKey_branch : (branch h s k a l r).minKey = l.minKey := rfl
@[simp] theorem keys_setAnn : (t.setAnn a).keys = t.keys := by
  cases t <;> rfl

@[simp] theorem height_mapAnn : (t.mapAnn f).height = t.height := by cases t <;> rfl
@[simp] theorem size_mapAnn : (t.mapAnn f).size = t.size := by cases t <;> rfl
@[simp] theorem keys_mapAnn : (t.mapAnn f).keys = t.keys := by
  induction t with
  | leaf k v a => rfl
  | branch h s k a l r ihl ihr => simp [mapAnn,ihl,ihr]

@[simp] theorem minKey_mapAnn : (t.mapAnn f).minKey = t.minKey := by
  induction t with
  | leaf k v a => rfl
  | branch h s k a l r ihl ihr => simp [mapAnn,ihl]

@[simp] theorem setAnn_mapAnn :
    (t.mapAnn f).setAnn (f a) = (t.setAnn a).mapAnn f := by cases t <;> rfl

theorem keys_eq_map_toList : t.keys = t.toList.map Prod.fst := by
  induction t with
  | leaf k v a => rfl
  | branch h s k a l r ihl ihr => simp [toList,ihl,ihr]

theorem length_keys : t.keys.length = t.leafCount := by
  induction t with
  | leaf k v a => rfl
  | branch h s k a l r ihl ihr => simp [leafCount,ihl,ihr]

theorem minKey_mem_keys : t.minKey ∈ t.keys := by
  induction t with
  | leaf k v a => simp
  | branch h s k a l r ihl ihr => simp [ihl]

/-- A branch whose height and size are computed from its children. -/
def mk (k : κ) (a : α) (l r : LeafTree κ ν α) : LeafTree κ ν α :=
  branch (max l.height r.height + 1) (l.size + r.size) k a l r

@[simp] theorem keys_mk : (mk k a l r).keys = l.keys ++ r.keys := rfl
@[simp] theorem minKey_mk : (mk k a l r).minKey = l.minKey := rfl
@[simp] theorem height_mk : (mk k a l r).height = max l.height r.height + 1 := rfl
@[simp] theorem size_mk : (mk k a l r).size = l.size + r.size := rfl
@[simp] theorem mapAnn_mk : (mk k a l r).mapAnn f = mk k (f a) (l.mapAnn f) (r.mapAnn f) := by
  simp [mk,mapAnn]

/-- Lift the left child over its parent; a tree without that shape is returned as it is. -/
def rotateRight (a : α) : LeafTree κ ν α → LeafTree κ ν α
  | branch _ _ k b (branch _ _ lk _ ll lr) r => mk lk a ll (mk k b lr r)
  | t => t

def rotateLeft (a : α) : LeafTree κ ν α → LeafTree κ ν α
  | branch _ _ k b l (branch _ _ rk _ rl rr) => mk rk a (mk k b l rl) rr
  | t => t

/-- Height of the left child minus height of the right child. -/
def balance : LeafTree κ ν α → ℤ
  | leaf .. => 0
  | branch _ _ _ _ l r => (l.height : ℤ) - r.height

@[simp] theorem balance_branch : (branch h s k a l r).balance = (l.height : ℤ) - r.height := rfl
@[simp] theorem balance_mapAnn :
    (t.mapAnn f).balance = t.balance := by cases t <;> simp [mapAnn,balance]

end

/-- Restore the height balance at the root by one single or double rotation. -/
def reBalance (a : α) : LeafTree κ ν α → LeafTree κ ν α
  | leaf k v b => leaf k v b
  | branch h s k b l r =>
    if 1 < (l.height : ℤ) - r.height then
      if 0 ≤ l.balance then rotateRight a (branch h s k b l r)
      else rotateRight a (branch h s k b (rotateLeft a (l.setAnn a)) r)
    else if (l.height : ℤ) - r.height < -1 then
      if r.balance ≤ 0 then rotateLeft a (branch h s k b l r)
      else rotateLeft a (branch h s k b l (rotateRight a (r.setAnn a)))
    else branch h s k b l r

section
variable [LinearOrder κ]

/-- Store a value under a key. The flag says that an existing leaf was overwritten. -/
def insert (key : κ) (value : ν) (a : α) : LeafTree κ ν α → LeafTree κ ν α × Bool
  | leaf k v b =>
    if key < k then (branch 1 2 k a (leaf key value a) (leaf k v b),false)
    else if k < key then (branch 1 2 key a (leaf k v b) (leaf key value a),false)
    else (leaf k value a,true)
  | branch h s k _ l r =>
    if key < k then
      let c := insert key value a l
      if c.2 then (branch h s k a c.1 r,true) else (reBalance a (mk k a c.1 r),false)
    else
      let c := insert key value a r
      if c.2 then (branch h s k a l c.1,true) else (reBalance a (mk k a l c.1),false)

/-- What is left of a subtree after the leaf of a key was looked for.
`found` also carries the new smallest key when the smallest leaf went away. -/
inductive Erased (κ ν α : Type)
  | missing
  | gone (value : ν)
  | found (value : ν) (rest : LeafTree κ ν α) (newKey : Option κ)

def erase (key : κ) (a : α) : LeafTree κ ν α → Erased κ ν α
  | leaf k v _ => if k = key then .gone v else .missing
  | branch _ _ k _ l r =>
    if key < k then
      match erase key a l with
      | .missing => .missing
      | .gone v => .found v r (some k)
      | .found v l' nk => .found v (reBalance a (mk k a l' r)) nk
    else
      match erase key a r with
      | .missing => .missing
      | .gone v => .found v l none
      | .found v r' nk => .found v (reBalance a (mk (nk.getD k) a l r')) none

end

section
variable (f : α → β) (a : α) (t : LeafTree κ ν α)

theorem mapAnn_rotateRight : (rotateRight a t).mapAnn f = rotateRight (f a) (t.mapAnn f) := by
  cases t with
  | leaf k v b => rfl
  | branch h s k b l r => cases l <;> simp [rotateRight,mapAnn]

theorem mapAnn_rotateLeft : (rotateLeft a t).mapAnn f = rotateLeft (f a) (t.mapAnn f) := by
  cases t with
  | leaf k v b => rfl
  | branch h s k b l r => cases r <;> simp [rotateLeft,mapAnn]

theorem mapAnn_reBalance : (reBalance a t).mapAnn f = reBalance (f a) (t.mapAnn f) := by
  cases t with
  | leaf k v b => rfl
  | branch h s k b l r =>
    simp only [reBalance,mapAnn,height_mapAnn,balance_mapAnn]
    split_ifs <;> simp [mapAnn_rotateRight,mapAnn_rotateLeft,mapAnn]

theorem mapAnn_insert [LinearOrder κ] (f : α → β) (key : κ) (value : ν) (a : α)
    (t : LeafTree κ ν α) :
    (t.mapAnn f).insert key value (f a) =
      ((t.insert key value a).1.mapAnn f,(t.insert key value a).2) := by
  induction t with
  | leaf k v b => simp only [mapAnn,insert]; split_ifs <;> rfl
  | branch h s k b l r ihl ihr =>
    simp only [mapAnn,insert,ihl,ihr]
    split_ifs <;> simp [mapAnn,mapAnn_reBalance]

def Erased.mapAnn (f : α → β) : Erased κ ν α → Erased κ ν β
  | missing => missing
  | gone v => gone v
  | found v t nk => found v (t.mapAnn f) nk

theorem mapAnn_erase [LinearOrder κ] (f : α → β) (key : κ) (a : α) (t : LeafTree κ ν α) :
    (t.mapAnn f).erase key (f a) = (t.erase key a).mapAnn f := by
  induction t with
  | leaf k v b => simp only [LeafTree.mapAnn,erase]; split_ifs <;> rfl
  | branch h s k b l r ihl ihr =>
    simp only [LeafTree.mapAnn,erase,ihl,ihr]
    split_ifs
    · cases erase key a l <;> simp [Erased.mapAnn,mapAnn_reBalance]
    · cases erase key a r <;> simp [Erased.mapAnn,mapAnn_reBalance]

@[simp] theorem keys_rotateRight : (rotateRight a t).keys = t.keys := by
  cases t with
  | leaf k v b => rfl
  | branch h s k b l r => cases l <;> simp [rotateRight]

@[simp] theorem keys_rotateLeft : (rotateLeft a t).keys = t.keys := by
  cases t with
  | leaf k v b => rfl
  | branch h s k b l r => cases r <;> simp [rotateLeft]

@[simp] theorem keys_reBalance : (reBalance a t).keys = t.keys := by
  cases t with
  | leaf k v b => rfl
  | branch h s k b l r => simp only [reBalance]; split_ifs <;> simp

end

def Every (P : LeafTree κ ν α → Prop) : LeafTree κ ν α → Prop
  | leaf k v a => P (leaf k v a)
  | branch h s k a l r => P (branch h s k a l r) ∧ l.Every P ∧ r.Every P

variable {t : LeafTree κ ν α}

theorem Every.mono {P Q : LeafTree κ ν α → Prop} (hPQ : ∀ t, P t → Q t) (ht : t.Every P) :
    t.Every Q := by
  induction t with
  | leaf k v a => exact hPQ _ ht
  | branch h s k a l r ihl ihr => exact ⟨hPQ _ ht.1,ihl ht.2.1,ihr ht.2.2⟩

section
variable {P : LeafTree κ ν α → Prop} {a : α} (ha : ∀ t, t.ann = a → P t)
include ha

variable {l r : LeafTree κ ν α}

section
variable (hl : l.Every P) (hr : r.Every P) (h s : ℕ) (k : κ)
include hl hr h

theorem Every.branch : (branch h s k a l r).Every P :=
  ⟨ha _ rfl,hl,hr⟩

theorem Every.rotateRight : (rotateRight a (.branch h s k a l r)).Every P := by
  cases l with
  | leaf lk lv b => exact Every.branch ha hl hr h s k
  | branch lh ls lk b ll lr =>
    exact Every.branch ha hl.2.1 (Every.branch ha hl.2.2 hr _ _ k) _ _ lk

theorem Every.rotateLeft : (rotateLeft a (.branch h s k a l r)).Every P := by
  cases r with
  | leaf rk rv b => exact Every.branch ha hl hr h s k
  | branch rh rs rk b rl rr =>
    exact Every.branch ha (Every.branch ha hl hr.2.1 _ _ k) hr.2.2 _ _ rk

theorem Every.reBalance : (reBalance a (.branch h s k a l r)).Every P := by
  simp only [LeafTree.reBalance]
  split_ifs
  · exact Every.rotateRight ha hl hr h s k
  · refine Every.rotateRight ha ?_ hr h s k
    cases l with
    | leaf lk lv b => exact ha _ rfl
    | branch lh ls lk b ll lr => exact Every.rotateLeft ha hl.2.1 hl.2.2 lh ls lk
  · exact Every.rotateLeft ha hl hr h s k
  · refine Every.rotateLeft ha hl ?_ h s k
    cases r with
    | leaf rk rv b => exact ha _ rfl
    | branch rh rs rk b rl rr => exact Every.rotateRight ha hr.2.1 hr.2.2 rh rs rk
  · exact Every.branch ha hl hr h s k

end

/-- An update keeps a property of all nodes that every node with the new annotation has. -/
theorem Every.insert [LinearOrder κ] (key : κ) (value : ν) {t : LeafTree κ ν α}
    (ht : t.Every P) : (t.insert key value a).1.Every P := by
  induction t with
  | leaf k v b =>
    have hleaf : (leaf key value a).Every P := ha _ rfl
    simp only [LeafTree.insert]
    split_ifs
    · exact Every.branch ha hleaf ht 1 2 k
    · exact Every.branch ha ht hleaf 1 2 key
    · exact ha _ rfl
  | branch h s k b l r ihl ihr =>
    simp only [LeafTree.insert]
    split_ifs
    · exact Every.branch ha (ihl ht.2.1) ht.2.2 h s k
    · exact Every.reBalance ha (ihl ht.2.1) ht.2.2 _ _ k
    · exact Every.branch ha ht.2.1 (ihr ht.2.2) h s k
    · exact Every.reBalance ha ht.2.1 (ihr ht.2.2) _ _ k

theorem Every.erase [LinearOrder κ] {key : κ} {t u : LeafTree κ ν α} {v : ν} {nk : Option κ}
    (ht : t.Every P) (he : t.erase key a = .found v u nk) : u.Every P := by
  fun_induction LeafTree.erase key a t generalizing u v nk with
  | case1 | case2 | case3 | case6 => cases he
  | case4 =>
    cases he
    exact ht.2.2
  | case5 h s k b l r hk x l' nk' hl ih =>
    cases he
    exact Every.reBalance ha (ih ht.2.1 hl) ht.2.2 _ _ k
  | case7 =>
    cases he
    exact ht.2.1
  | case8 h s k b l r hk x r' nk' hr ih =>
    cases he
    exact Every.reBalance ha ht.2.1 (ih ht.2.2 hr) _ _ _

end

section
variable [LinearOrder κ]

/-- Every branch key is the smallest key on its right, and bounds its left side strictly. -/
def Search : LeafTree κ ν α → Prop
  | leaf .. => True
  | branch _ _ k _ l r => l.Search ∧ r.Search ∧ k = r.minKey ∧ ∀ x ∈ l.keys, x < k

instance decidableSearch : (t : LeafTree κ ν α) → Decidable t.Search
  | leaf .. => .isTrue trivial
  | branch _ _ k _ l r =>
    have := decidableSearch l
    have := decidableSearch r
    inferInstanceAs (Decidable (l.Search ∧ r.Search ∧ k = r.minKey ∧ ∀ x ∈ l.keys, x < k))

@[simp] theorem search_leaf (k : κ) (v : ν) (a : α) : (leaf k v a).Search := trivial
@[simp] theorem search_branch (h s : ℕ) (k : κ) (a : α) (l r : LeafTree κ ν α) :
    (branch h s k a l r).Search ↔
      l.Search ∧ r.Search ∧ k = r.minKey ∧ ∀ x ∈ l.keys, x < k := Iff.rfl

@[simp] theorem search_mk (k : κ) (a : α) (l r : LeafTree κ ν α) :
    (mk k a l r).Search ↔ l.Search ∧ r.Search ∧ k = r.minKey ∧ ∀ x ∈ l.keys, x < k := Iff.rfl

@[simp] theorem search_setAnn (a : α) (t : LeafTree κ ν α) : (t.setAnn a).Search ↔ t.Search := by
  cases t <;> rfl

theorem search_mapAnn (f : α → β) (t : LeafTree κ ν α) : (t.mapAnn f).Search ↔ t.Search := by
  induction t with
  | leaf k v a => exact Iff.rfl
  | branch h s k a l r ihl ihr => simp [mapAnn,ihl,ihr]

section
variable (ht : t.Search)
include ht

theorem Search.minKey_le {x : κ} (hx : x ∈ t.keys) : t.minKey ≤ x := by
  induction t with
  | leaf k v a => simp at hx; simp [hx]
  | branch h s k a l r ihl ihr =>
    obtain ⟨hl,hr,hk,hlt⟩ := ht
    rcases List.mem_append.mp hx with hx | hx
    · exact ihl hl hx
    · have h1 : l.minKey < k := hlt _ l.minKey_mem_keys
      exact (h1.trans_le (hk ▸ ihr hr hx)).le

/-- The smallest key is determined by the set of keys. -/
theorem Search.minKey_eq {m : κ} (hm : m ∈ t.keys) (hle : ∀ x ∈ t.keys, m ≤ x) : t.minKey = m :=
  le_antisymm (ht.minKey_le hm) (hle _ t.minKey_mem_keys)

/-- Leaf keys increase strictly from left to right. -/
theorem Search.keys_sorted : t.keys.Pairwise (· < ·) := by
  induction t with
  | leaf k v a => simp
  | branch h s k a l r ihl ihr =>
    obtain ⟨hl,hr,hk,hlt⟩ := ht
    refine List.pairwise_append.mpr ⟨ihl hl,ihr hr,fun x hx y hy => ?_⟩
    exact (hlt x hx).trans_le (hk ▸ hr.minKey_le hy)

theorem Search.rotateRight (a : α) : (rotateRight a t).Search := by
  cases t with
  | leaf k v b => exact ht
  | branch h s k b l r =>
    cases l with
    | leaf lk lv lb => exact ht
    | branch lh ls lk lb ll lr =>
      obtain ⟨⟨hll,hlr,hlk,hllt⟩,hr,hk,hlt⟩ := ht
      simp only [keys_branch,List.mem_append] at hlt
      exact ⟨hll,⟨hlr,hr,hk,fun x hx => hlt x (Or.inr hx)⟩,hlk,hllt⟩

theorem Search.rotateLeft (a : α) : (rotateLeft a t).Search := by
  cases t with
  | leaf k v b => exact ht
  | branch h s k b l r =>
    cases r with
    | leaf rk rv rb => exact ht
    | branch rh rs rk rb rl rr =>
      obtain ⟨hl,⟨hrl,hrr,hrk,hrlt⟩,hk,hlt⟩ := ht
      refine ⟨⟨hl,hrl,hk,hlt⟩,hrr,hrk,fun x hx => ?_⟩
      rcases List.mem_append.mp hx with hx | hx
      · have h1 : k < rk := hrlt k (hk ▸ minKey_mem_keys rl)
        exact (hlt x hx).trans h1
      · exact hrlt x hx

theorem Search.minKey_congr {u : LeafTree κ ν α} (hu : u.Search) (hk : t.keys = u.keys) :
    t.minKey = u.minKey :=
  ht.minKey_eq (hk ▸ u.minKey_mem_keys) fun _ hx => hu.minKey_le (hk ▸ hx)

theorem Search.reBalance (a : α) : (reBalance a t).Search := by
  cases t with
  | leaf k v b => exact ht
  | branch h s k b l r =>
    obtain ⟨hl,hr,hk,hlt⟩ := ht
    have ht : (branch h s k b l r).Search := ⟨hl,hr,hk,hlt⟩
    have hl' : (LeafTree.rotateLeft a (l.setAnn a)).Search :=
      Search.rotateLeft ((search_setAnn a l).mpr hl) a
    have hr' : (LeafTree.rotateRight a (r.setAnn a)).Search :=
      Search.rotateRight ((search_setAnn a r).mpr hr) a
    simp only [LeafTree.reBalance]
    split_ifs
    · exact ht.rotateRight a
    · refine Search.rotateRight ((search_branch ..).mpr ⟨hl',hr,hk,?_⟩) a
      simpa using hlt
    · exact ht.rotateLeft a
    · refine Search.rotateLeft ((search_branch ..).mpr ⟨hl,hr',?_,hlt⟩) a
      rw [hk]
      exact hr.minKey_congr hr' (by simp)
    · exact ht

end

theorem mem_keys_insert (key : κ) (value : ν) (a : α) (t : LeafTree κ ν α) (x : κ) :
    x ∈ (t.insert key value a).1.keys ↔ x = key ∨ x ∈ t.keys := by
  induction t with
  | leaf k v b =>
    simp only [insert]
    split_ifs with h1 h2
    · simp
    · simp [or_comm]
    · have hk : key = k := le_antisymm (not_lt.mp h2) (not_lt.mp h1)
      simp [hk]
  | branch h s k b l r ihl ihr =>
    simp only [insert]
    split_ifs <;> simp [ihl,ihr,or_assoc,or_left_comm]

theorem Search.insert (ht : t.Search) (key : κ) (value : ν) (a : α) :
    (t.insert key value a).1.Search := by
  induction t with
  | leaf k v b =>
    simp only [LeafTree.insert]
    split_ifs with h1 h2
    · simpa using h1
    · simpa using h2
    · trivial
  | branch h s k b l r ihl ihr =>
    obtain ⟨hl,hr,hk,hlt⟩ := ht
    -- Left of the branch key: the new key is below it as well.
    have hleft : key < k → ∀ x ∈ (l.insert key value a).1.keys, x < k := by
      intro hkey x hx
      rcases (mem_keys_insert key value a l x).mp hx with rfl | hx
      · exact hkey
      · exact hlt x hx
    -- Right of it: the branch key stays the smallest one.
    have hright : ¬ key < k → k = (r.insert key value a).1.minKey := by
      intro hkey
      refine ((ihr hr).minKey_eq ?_ fun x hx => ?_).symm
      · exact (mem_keys_insert key value a r k).mpr (Or.inr (hk ▸ minKey_mem_keys r))
      · rcases (mem_keys_insert key value a r x).mp hx with rfl | hx
        · exact not_lt.mp hkey
        · exact hk ▸ hr.minKey_le hx
    simp only [LeafTree.insert]
    split_ifs with h1 h2 h2
    · exact ⟨ihl hl,hr,hk,hleft h1⟩
    · exact Search.reBalance ((search_mk ..).mpr ⟨ihl hl,hr,hk,hleft h1⟩) a
    · exact ⟨hl,ihr hr,hright h1,hlt⟩
    · exact Search.reBalance ((search_mk ..).mpr ⟨hl,ihr hr,hright h1,hlt⟩) a

/-- What the outcome of a removal says about the tree it was taken from. -/
def Erased.Spec (key : κ) (t : LeafTree κ ν α) : Erased κ ν α → Prop
  | missing => key ∉ t.keys
  | gone _ => t.keys = [key]
  | found _ u nk => u.Search ∧ (∀ x, x ∈ u.keys ↔ x ∈ t.keys ∧ x ≠ key) ∧ key ∈ t.keys ∧
      u.minKey = nk.getD t.minKey

/-- Removing takes away exactly the removed key, and reports the new smallest key
precisely when it changed. -/
theorem Search.erase_spec (ht : t.Search) (key : κ) (a : α) : (t.erase key a).Spec key t := by
  induction t with
  | leaf k v b =>
    simp only [erase]
    split_ifs with h
    · simp [Erased.Spec,h]
    · simpa [Erased.Spec] using Ne.symm h
  | branch h s k b l r ihl ihr =>
    obtain ⟨hl,hr,hk,hlt⟩ := ht
    have hr_le : ∀ x ∈ r.keys, k ≤ x := fun x hx => hk ▸ hr.minKey_le hx
    simp only [erase]
    split_ifs with hkey
    · -- The key can only be on the left.
      have hne : ∀ x ∈ r.keys, x ≠ key := fun x hx => (hkey.trans_le (hr_le x hx)).ne'
      have ih := ihl hl
      cases he : erase key a l with
      | missing =>
        rw [he] at ih
        simpa [Erased.Spec] using ⟨ih,fun hx => hne key hx rfl⟩
      | gone v =>
        rw [he] at ih
        simp only [Erased.Spec] at ih ⊢
        refine ⟨hr,fun x => ?_,by simp [ih],hk.symm⟩
        rw [keys_branch,ih,List.mem_append,or_and_right,and_iff_left_of_imp (hne x)]
        simp
      | found v u nk =>
        rw [he] at ih
        obtain ⟨hu,hmem,hin,hmin⟩ := ih
        have hs : (mk k a u r).Search :=
          ⟨hu,hr,hk,fun x hx => hlt x ((hmem x).mp hx).1⟩
        refine ⟨hs.reBalance a,fun x => ?_,by simp [hin],?_⟩
        · rw [keys_reBalance,keys_mk,keys_branch,List.mem_append,List.mem_append,hmem,
            or_and_right,and_iff_left_of_imp (hne x)]
        · rw [(hs.reBalance a).minKey_congr hs (by simp)]
          simpa using hmin
    · -- The key can only be on the right.
      have hne : ∀ x ∈ l.keys, x ≠ key := fun x hx hxk => hkey (hxk ▸ hlt x hx)
      have ih := ihr hr
      cases he : erase key a r with
      | missing =>
        rw [he] at ih
        simpa [Erased.Spec] using ⟨fun hx => hne key hx rfl,ih⟩
      | gone v =>
        rw [he] at ih
        simp only [Erased.Spec] at ih ⊢
        refine ⟨hl,fun x => ?_,by simp [ih],rfl⟩
        rw [keys_branch,ih,List.mem_append,or_and_right,and_iff_left_of_imp (hne x)]
        simp
      | found v u nk =>
        rw [he] at ih
        obtain ⟨hu,hmem,hin,hmin⟩ := ih
        have hkeyEq : nk.getD k = u.minKey := by rw [hmin,hk]
        have hs : (mk (nk.getD k) a l u).Search := by
          refine ⟨hl,hu,hkeyEq,fun x hx => ?_⟩
          have h1 : u.minKey ∈ r.keys := ((hmem _).mp u.minKey_mem_keys).1
          exact hkeyEq ▸ (hlt x hx).trans_le (hr_le _ h1)
        refine ⟨hs.reBalance a,fun x => ?_,by simp [hin],?_⟩
        · rw [keys_reBalance,keys_mk,keys_branch,List.mem_append,List.mem_append,hmem,
            or_and_right,and_iff_left_of_imp (hne x)]
        · rw [(hs.reBalance a).minKey_congr hs (by simp)]
          rfl

end

/-- Stored heights and sizes are those of the children, whose heights differ by at most one. -/
def Balanced : LeafTree κ ν α → Prop
  | leaf .. => True
  | branch h s _ _ l r => l.Balanced ∧ r.Balanced ∧ h = max l.height r.height + 1 ∧
      s = l.size + r.size ∧ l.height ≤ r.height + 1 ∧ r.height ≤ l.height + 1

instance decidableBalanced : (t : LeafTree κ ν α) → Decidable t.Balanced
  | leaf .. => .isTrue trivial
  | branch h s _ _ l r =>
    have := decidableBalanced l
    have := decidableBalanced r
    inferInstanceAs (Decidable (l.Balanced ∧ r.Balanced ∧ h = max l.height r.height + 1 ∧
      s = l.size + r.size ∧ l.height ≤ r.height + 1 ∧ r.height ≤ l.height + 1))

@[simp] theorem balanced_leaf (k : κ) (v : ν) (a : α) : (leaf k v a).Balanced := trivial
@[simp] theorem balanced_branch (h s : ℕ) (k : κ) (a : α) (l r : LeafTree κ ν α) :
    (branch h s k a l r).Balanced ↔ l.Balanced ∧ r.Balanced ∧
      h = max l.height r.height + 1 ∧ s = l.size + r.size ∧
      l.height ≤ r.height + 1 ∧ r.height ≤ l.height + 1 := Iff.rfl

@[simp] theorem balanced_mk (k : κ) (a : α) (l r : LeafTree κ ν α) :
    (mk k a l r).Balanced ↔ l.Balanced ∧ r.Balanced ∧
      l.height ≤ r.height + 1 ∧ r.height ≤ l.height + 1 := by simp [mk]

theorem balanced_mapAnn (f : α → β) (t : LeafTree κ ν α) : (t.mapAnn f).Balanced ↔ t.Balanced := by
  induction t with
  | leaf k v a => exact Iff.rfl
  | branch h s k a l r ihl ihr => simp [mapAnn,ihl,ihr]

theorem Balanced.size_eq (ht : t.Balanced) : t.size = t.leafCount := by
  induction t with
  | leaf k v a => rfl
  | branch h s k a l r ihl ihr =>
    obtain ⟨hl,hr,-,hs,-,-⟩ := ht
    simp [leafCount,hs,ihl hl,ihr hr]

theorem Balanced.every_size_eq (ht : t.Balanced) : t.Every fun u => u.size = u.leafCount := by
  induction t with
  | leaf k v a => rfl
  | branch h s k a l r ihl ihr => exact ⟨ht.size_eq,ihl ht.1,ihr ht.2.1⟩

/-- The fewest leaves a balanced tree of a given height can have. -/
theorem Balanced.fib_le (ht : t.Balanced) : Nat.fib (t.height + 2) ≤ t.leafCount := by
  induction t with
  | leaf k v a => simp [leafCount]
  | branch h s k a l r ihl ihr =>
    obtain ⟨hl,hr,hh,-,h1,h2⟩ := ht
    have hl' := ihl hl
    have hr' := ihr hr
    simp only [height_branch,leafCount]
    -- One child has height `h - 1`, the other at least `h - 2`.
    rcases le_total l.height r.height with hle | hle
    · have h3 : h = r.height + 1 := by omega
      have hm : Nat.fib (r.height + 1) ≤ Nat.fib (l.height + 2) := Nat.fib_mono (by omega)
      have hf : Nat.fib (r.height + 1 + 2) = Nat.fib (r.height + 1) + Nat.fib (r.height + 2) :=
        Nat.fib_add_two
      rw [h3,hf]
      omega
    · have h3 : h = l.height + 1 := by omega
      have hm : Nat.fib (l.height + 1) ≤ Nat.fib (r.height + 2) := Nat.fib_mono (by omega)
      have hf : Nat.fib (l.height + 1 + 2) = Nat.fib (l.height + 1) + Nat.fib (l.height + 2) :=
        Nat.fib_add_two
      rw [h3,hf]
      omega

/-- A bound on the number of leaves bounds the height. -/
theorem Balanced.height_lt (ht : t.Balanced) {n : ℕ} (hn : t.leafCount < Nat.fib (n + 2)) :
    t.height < n := by
  by_contra hc
  have h1 : Nat.fib (n + 2) ≤ Nat.fib (t.height + 2) := Nat.fib_mono (by omega)
  have h2 := ht.fib_le
  omega

/-- One rotation repairs a height difference of two, and the height of the result
is that of the higher child or one more; without a rotation it is one more. -/
theorem reBalance_mk {l r : LeafTree κ ν α} (hl : l.Balanced) (hr : r.Balanced)
    (h1 : l.height ≤ r.height + 2) (h2 : r.height ≤ l.height + 2) (k : κ) (a : α) :
    (reBalance a (mk k a l r)).Balanced ∧
      (reBalance a (mk k a l r)).size = l.size + r.size ∧
      max l.height r.height ≤ (reBalance a (mk k a l r)).height ∧
      (reBalance a (mk k a l r)).height ≤ max l.height r.height + 1 ∧
      (l.height ≤ r.height + 1 → r.height ≤ l.height + 1 →
        (reBalance a (mk k a l r)).height = max l.height r.height + 1) := by
  simp only [mk,reBalance]
  split_ifs with hb hlb hb' hrb
  · -- left left
    cases l with
    | leaf lk lv lb => simp only [height_leaf] at hb; omega
    | branch lh ls lk lb ll lr =>
      simp only [balanced_branch,balance_branch,height_branch] at hl hlb hb h1
      simp only [rotateRight,balanced_mk,size_mk,height_mk,height_branch,size_branch]
      refine ⟨⟨hl.1,⟨hl.2.1,hr,?_,?_⟩,?_,?_⟩,?_,?_,?_,?_⟩ <;> omega
  · -- left right
    cases l with
    | leaf lk lv lb => simp only [height_leaf] at hb; omega
    | branch lh ls lk lb ll lr =>
      simp only [balanced_branch,balance_branch,height_branch] at hl hlb hb h1
      cases lr with
      | leaf lrk lrv lrb => simp only [height_leaf] at hlb; omega
      | branch lrh lrs lrk lrb lrl lrr =>
        simp only [balanced_branch,height_branch,size_branch] at hl hlb
        simp only [setAnn,rotateLeft,mk,rotateRight,balanced_branch,size_branch,height_branch,
          true_and]
        refine ⟨⟨⟨hl.1,hl.2.1.1,?_,?_⟩,⟨hl.2.1.2.1,hr,?_,?_⟩,?_,?_⟩,?_,?_,?_,?_⟩ <;> omega
  · -- right right
    cases r with
    | leaf rk rv rb => simp only [height_leaf] at hb'; omega
    | branch rh rs rk rb rl rr =>
      simp only [balanced_branch,balance_branch,height_branch] at hr hrb hb' h2
      simp only [rotateLeft,balanced_mk,size_mk,height_mk,height_branch,size_branch]
      refine ⟨⟨⟨hl,hr.1,?_,?_⟩,hr.2.1,?_,?_⟩,?_,?_,?_,?_⟩ <;> omega
  · -- right left
    cases r with
    | leaf rk rv rb => simp only [height_leaf] at hb'; omega
    | branch rh rs rk rb rl rr =>
      simp only [balanced_branch,balance_branch,height_branch] at hr hrb hb' h2
      cases rl with
      | leaf rlk rlv rlb => simp only [height_leaf] at hrb; omega
      | branch rlh rls rlk rlb rll rlr =>
        simp only [balanced_branch,height_branch,size_branch] at hr hrb
        simp only [setAnn,rotateRight,mk,rotateLeft,balanced_branch,size_branch,height_branch,
          true_and]
        refine ⟨⟨⟨hl,hr.1.1,?_,?_⟩,⟨hr.1.2.1,hr.2.1,?_,?_⟩,?_,?_⟩,?_,?_,?_,?_⟩ <;> omega
  · simp only [balanced_branch,size_branch,height_branch,true_and]
    refine ⟨⟨hl,hr,?_,?_⟩,?_,?_,by simp⟩ <;> omega

section
variable [LinearOrder κ]

/-- Insertion keeps the balance; the height grows by at most one, and not at all when
an existing leaf is overwritten. -/
theorem Balanced.insert {t : LeafTree κ ν α} (ht : t.Balanced) (key : κ) (value : ν) (a : α) :
    (t.insert key value a).1.Balanced ∧
      t.height ≤ (t.insert key value a).1.height ∧
      (t.insert key value a).1.height ≤ t.height + 1 ∧
      ((t.insert key value a).2 = true → (t.insert key value a).1.height = t.height ∧
        (t.insert key value a).1.size = t.size) := by
  induction t with
  | leaf k v b => simp only [LeafTree.insert]; split_ifs <;> simp
  | branch h s k b l r ihl ihr =>
    obtain ⟨hl,hr,hh,hs,h1,h2⟩ := ht
    obtain ⟨hbl,hlo,hhi,heq⟩ := ihl hl
    obtain ⟨hbr,hro,hri,hreq⟩ := ihr hr
    have hgl := reBalance_mk hbl hr (by omega) (by omega) k a
    have hgr := reBalance_mk hl hbr (by omega) (by omega) k a
    simp only [LeafTree.insert]
    split_ifs with hk hu hu
    · obtain ⟨hheight,hsize⟩ := heq hu
      simp only [balanced_branch,height_branch,size_branch]
      refine ⟨⟨hbl,hr,?_,?_,?_,?_⟩,le_refl _,?_,by simp⟩ <;> omega
    · obtain ⟨hb,-,hlow,hhigh,hkeep⟩ := hgl
      simp only [height_branch]
      refine ⟨hb,?_,?_,by simp⟩ <;> omega
    · obtain ⟨hheight,hsize⟩ := hreq hu
      simp only [balanced_branch,height_branch,size_branch]
      refine ⟨⟨hl,hbr,?_,?_,?_,?_⟩,le_refl _,?_,by simp⟩ <;> omega
    · obtain ⟨hb,-,hlow,hhigh,hkeep⟩ := hgr
      simp only [height_branch]
      refine ⟨hb,?_,?_,by simp⟩ <;> omega

/-- Removal keeps the balance; the height shrinks by at most one. -/
theorem Balanced.erase {t : LeafTree κ ν α} (ht : t.Balanced) (key : κ) (a : α) :
    match t.erase key a with
    | .missing => True
    | .gone _ => t.height = 0
    | .found _ u _ => u.Balanced ∧ u.height ≤ t.height ∧ t.height ≤ u.height + 1 := by
  fun_induction LeafTree.erase key a t with
  | case1 => rfl
  | case2 | case3 | case6 => trivial
  | case4 h s k b l r hk v he ih =>
    obtain ⟨hl,hr,hh,hs,h1,h2⟩ := ht
    have ih := ih hl
    simp only [he] at ih
    refine ⟨hr,?_,?_⟩ <;> simp only [height_branch] <;> omega
  | case5 h s k b l r hk v u nk he ih =>
    obtain ⟨hl,hr,hh,hs,h1,h2⟩ := ht
    have ih := ih hl
    simp only [he] at ih
    obtain ⟨hb,-,hlow,hhigh,hkeep⟩ := reBalance_mk ih.1 hr (by omega) (by omega) k a
    refine ⟨hb,?_,?_⟩ <;> simp only [height_branch] <;> omega
  | case7 h s k b l r hk v he ih =>
    obtain ⟨hl,hr,hh,hs,h1,h2⟩ := ht
    have ih := ih hr
    simp only [he] at ih
    refine ⟨hl,?_,?_⟩ <;> simp only [height_branch] <;> omega
  | case8 h s k b l r hk v u nk he ih =>
    obtain ⟨hl,hr,hh,hs,h1,h2⟩ := ht
    have ih := ih hr
    simp only [he] at ih
    obtain ⟨hb,-,hlow,hhigh,hkeep⟩ := reBalance_mk hl ih.1 (by omega) (by omega) (nk.getD k) a
    refine ⟨hb,?_,?_⟩ <;> simp only [height_branch] <;> omega

/-- The representation invariant: a height-balanced search tree. -/
structure Avl (t : LeafTree κ ν α) : Prop where
  search : t.Search
  balanced : t.Balanced

instance (t : LeafTree κ ν α) : Decidable t.Avl :=
  decidable_of_iff (t.Search ∧ t.Balanced) ⟨fun h => ⟨h.1,h.2⟩,fun h => ⟨h.1,h.2⟩⟩

theorem avl_mapAnn (f : α → β) (t : LeafTree κ ν α) : (t.mapAnn f).Avl ↔ t.Avl :=
  ⟨fun h => ⟨(search_mapAnn f t).mp h.1,(balanced_mapAnn f t).mp h.2⟩,
    fun h => ⟨(search_mapAnn f t).mpr h.1,(balanced_mapAnn f t).mpr h.2⟩⟩

theorem Avl.insert {t : LeafTree κ ν α} (ht : t.Avl) (key : κ) (value : ν) (a : α) :
    (t.insert key value a).1.Avl :=
  ⟨ht.search.insert key value a,(ht.balanced.insert key value a).1⟩

theorem Avl.erase {t u : LeafTree κ ν α} (ht : t.Avl) {key : κ} {a : α} {v : ν} {nk : Option κ}
    (he : t.erase key a = .found v u nk) : u.Avl := by
  have hs := ht.search.erase_spec key a
  have hb := ht.balanced.erase key a
  rw [he] at hs
  simp only [he] at hb
  exact ⟨hs.1,hb.1⟩

end

end LeafTree
