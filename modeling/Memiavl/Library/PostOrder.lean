import Memiavl.Library.LeafTree

/-! Post-order listings of trees with entries at the leaves, and the stack machine that rebuilds
trees from them. The listing of a branch gives its height and annotation; its size and key are
computed from its subtrees. -/

namespace LeafTree

variable {κ ν α : Type}

/-- One node of a listing. -/
inductive Token (κ ν α : Type)
  | leaf (key : κ) (value : ν) (ann : α)
  | branch (height : ℕ) (ann : α)
  deriving DecidableEq

def postorder : LeafTree κ ν α → List (Token κ ν α)
  | leaf k v a => [.leaf k v a]
  | branch h _ _ a l r => l.postorder ++ r.postorder ++ [.branch h a]

/-- A branch over two subtrees, with a height that may be wrong. -/
def join (h : ℕ) (a : α) (l r : LeafTree κ ν α) : LeafTree κ ν α :=
  branch h (l.size+r.size) r.minKey a l r

/-- Takes one node; the last subtree is on top of the stack. A branch needs two of them. -/
def push : List (LeafTree κ ν α) → Token κ ν α → Option (List (LeafTree κ ν α))
  | ts,.leaf k v a => some (leaf k v a::ts)
  | r::l::ts,.branch h a => some (join h a l r::ts)
  | _,.branch _ _ => none

def rebuild (ts : List (LeafTree κ ν α)) (tokens : List (Token κ ν α)) :
    Option (List (LeafTree κ ν α)) := tokens.foldlM push ts

/-- Sizes and keys are those of the subtrees. -/
def Exact : LeafTree κ ν α → Prop
  | leaf .. => True
  | branch _ s k _ l r => l.Exact ∧ r.Exact ∧ s = l.size+r.size ∧ k = r.minKey

variable {t : LeafTree κ ν α}

theorem Exact.size_eq (ht : t.Exact) : t.size = t.leafCount := by
  induction t with
  | leaf k v a => rfl
  | branch h s k a l r ihl ihr =>
    obtain ⟨hl,hr,hs,-⟩ := ht
    rw [size_branch,hs,ihl hl,ihr hr,leafCount]

theorem Avl.exact [LinearOrder κ] (ht : t.Avl) : t.Exact := by
  obtain ⟨hs,hb⟩ := ht
  induction t with
  | leaf k v a => trivial
  | branch h s k a l r ihl ihr =>
    exact ⟨ihl hs.1 hb.1,ihr hs.2.1 hb.2.1,hb.2.2.2.1,hs.2.2.1⟩

/-- The longest way down. -/
def depth : LeafTree κ ν α → ℕ
  | leaf .. => 0
  | branch _ _ _ _ l r => max l.depth r.depth+1

/-- How many subtrees wait for their parents at most, besides the one in work, when a tree is
listed. -/
def waiting : LeafTree κ ν α → ℕ
  | leaf .. => 0
  | branch _ _ _ _ l r => max l.waiting (r.waiting+1)

theorem waiting_le_depth (t : LeafTree κ ν α) : t.waiting ≤ t.depth := by
  induction t with
  | leaf k v a => exact le_rfl
  | branch h s k a l r ihl ihr =>
    simp only [waiting,depth]
    omega

/-- Heights are those of the subtrees. -/
def Measured : LeafTree κ ν α → Prop
  | leaf .. => True
  | branch h _ _ _ l r => l.Measured ∧ r.Measured ∧ h = max l.height r.height+1

instance decidableMeasured : (t : LeafTree κ ν α) → Decidable t.Measured
  | leaf .. => .isTrue trivial
  | branch h _ _ _ l r =>
    have := decidableMeasured l
    have := decidableMeasured r
    inferInstanceAs (Decidable (l.Measured ∧ r.Measured ∧ h = max l.height r.height+1))

theorem Measured.depth_eq (ht : t.Measured) : t.depth = t.height := by
  induction t with
  | leaf k v a => rfl
  | branch h s k a l r ihl ihr => rw [depth,ihl ht.1,ihr ht.2.1,height_branch,ht.2.2]

theorem Measured.every_height_le (ht : t.Measured) : t.Every fun u => u.height ≤ t.height := by
  induction t with
  | leaf k v a => exact le_rfl
  | branch h s k a l r ihl ihr =>
    obtain ⟨hl,hr,rfl⟩ := ht
    refine ⟨le_rfl,(ihl hl).mono fun u hu => hu.trans ?_,(ihr hr).mono fun u hu => hu.trans ?_⟩
    · exact Nat.le_succ_of_le (le_max_left ..)
    · exact Nat.le_succ_of_le (le_max_right ..)

theorem Balanced.measured (ht : t.Balanced) : t.Measured := by
  induction t with
  | leaf k v a => trivial
  | branch h s k a l r ihl ihr => exact ⟨ihl ht.1,ihr ht.2.1,ht.2.2.1⟩

section
variable {β : Type} (f : α → β) (t : LeafTree κ ν α)

@[simp] theorem exact_mapAnn : (t.mapAnn f).Exact ↔ t.Exact := by
  induction t with
  | leaf k v a => rfl
  | branch h s k a l r ihl ihr => simp [mapAnn,Exact,ihl,ihr]

@[simp] theorem measured_mapAnn : (t.mapAnn f).Measured ↔ t.Measured := by
  induction t with
  | leaf k v a => rfl
  | branch h s k a l r ihl ihr => simp [mapAnn,Measured,ihl,ihr]

theorem every_height_mapAnn (P : ℕ → Prop) :
    ((t.mapAnn f).Every fun u => P u.height) ↔ t.Every fun u => P u.height := by
  induction t with
  | leaf k v a => rfl
  | branch h s k a l r ihl ihr => simp [mapAnn,Every,ihl,ihr]

end

/-- A bound on the heights in a listing holds in the tree. -/
theorem every_height_of_postorder {n : ℕ} (hn : 0 < n)
    (h : ∀ height a, Token.branch height a ∈ t.postorder → height < n) :
    t.Every fun u => u.height < n := by
  induction t with
  | leaf k v a => exact hn
  | branch h' s k a l r ihl ihr =>
    refine ⟨h h' a (by simp [postorder]),ihl ?_,ihr ?_⟩
    · exact fun height b hb => h height b (by simp [postorder,hb])
    · exact fun height b hb => h height b (by simp [postorder,hb])

@[simp] theorem rebuild_cons (ts : List (LeafTree κ ν α)) (x : Token κ ν α)
    (tokens : List (Token κ ν α)) : rebuild ts (x::tokens) = (push ts x).bind (rebuild · tokens) := rfl

theorem rebuild_append (ts : List (LeafTree κ ν α)) (xs ys : List (Token κ ν α)) :
    rebuild ts (xs ++ ys) = (rebuild ts xs).bind (rebuild · ys) := by
  rw [rebuild,List.foldlM_append]
  rfl

/-- The listing of a tree puts the tree on the stack. -/
theorem rebuild_postorder (ht : t.Exact) (ts : List (LeafTree κ ν α)) :
    rebuild ts t.postorder = some (t::ts) := by
  induction t generalizing ts with
  | leaf k v a => rfl
  | branch h s k a l r ihl ihr =>
    obtain ⟨hl,hr,rfl,rfl⟩ := ht
    rw [postorder,rebuild_append,rebuild_append,ihl hl,Option.bind_some,ihr hr,Option.bind_some]
    rfl

theorem Exact.join {l r : LeafTree κ ν α} (hl : l.Exact) (hr : r.Exact) (h : ℕ) (a : α) :
    (join h a l r).Exact := ⟨hl,hr,rfl,rfl⟩

/-- The listing of a stack, the top last. -/
def listing (ts : List (LeafTree κ ν α)) : List (Token κ ν α) := ts.reverse.flatMap postorder

@[simp] theorem listing_cons (t : LeafTree κ ν α) (ts : List (LeafTree κ ν α)) :
    listing (t::ts) = listing ts ++ t.postorder := by
  simp [listing]

theorem push_spec {ts ts' : List (LeafTree κ ν α)} {x : Token κ ν α} (hts : ∀ t ∈ ts, t.Exact)
    (h : push ts x = some ts') : listing ts' = listing ts ++ [x] ∧ ∀ t ∈ ts', t.Exact := by
  match ts,x with
  | ts,.leaf k v a =>
    cases h
    refine ⟨by simp [postorder],?_⟩
    simpa [Exact] using hts
  | r::l::ts,.branch h' a =>
    cases h
    refine ⟨by simp [postorder,LeafTree.join],?_⟩
    intro t ht
    rcases List.mem_cons.mp ht with rfl | ht
    · exact .join (hts l (by simp)) (hts r (by simp)) h' a
    · exact hts t (by simp [ht])
  | [],.branch h' a => cases h
  | [t],.branch h' a => cases h

/-- Whatever is taken is the listing of what is on the stack. -/
theorem rebuild_spec {ts ts' : List (LeafTree κ ν α)} {tokens : List (Token κ ν α)}
    (hts : ∀ t ∈ ts, t.Exact) (h : rebuild ts tokens = some ts') :
    listing ts' = listing ts ++ tokens ∧ ∀ t ∈ ts', t.Exact := by
  induction tokens generalizing ts with
  | nil =>
    cases h
    exact ⟨by simp,hts⟩
  | cons x tokens ih =>
    rw [rebuild_cons,Option.bind_eq_some_iff] at h
    obtain ⟨ts₁,hpush,h⟩ := h
    obtain ⟨hlist,hts₁⟩ := push_spec hts hpush
    obtain ⟨hlist',hts'⟩ := ih hts₁ h
    exact ⟨by rw [hlist',hlist,List.append_assoc,List.singleton_append],hts'⟩

/-- A listing is taken as a single tree exactly when it is the listing of that tree. -/
theorem rebuild_eq_single_iff {tokens : List (Token κ ν α)} :
    rebuild [] tokens = some [t] ↔ t.Exact ∧ tokens = t.postorder := by
  constructor
  · intro h
    obtain ⟨hlist,ht⟩ := rebuild_spec (by simp) h
    refine ⟨ht t (by simp),?_⟩
    simpa using hlist.symm
  · rintro ⟨ht,rfl⟩
    exact rebuild_postorder ht []

end LeafTree
