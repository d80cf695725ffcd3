import Memiavl.Tree

/-! Trees that share a heap behave as if each had its nodes for itself. The invariant of a
world says which cells belong to which tree; a cell that two trees reach is protected by
the `cowVersion` of both. -/
namespace Memiavl

open HeapM Option

/-- Versions of the nodes in memory are at most `b`. -/
def Mixed.Within (b : ℕ) (t : Mixed) : Prop :=
  t.Every fun u => u.ann.stored = none → u.ann.version.toNat ≤ b

namespace Mixed

def setRoot (m : Option Mixed) (key value : Bytes) (s : Stamp) : Mixed :=
  match m with
  | none => .leaf key value s
  | some t => (t.insert key value s).1

def removeRoot (m : Option Mixed) (key : Bytes) (s : Stamp) : Option Bytes × Option Mixed :=
  match m with
  | none => (none,none)
  | some t =>
    match t.erase key s with
    | .missing => (none,some t)
    | .gone value => (some value,none)
    | .found value u _ => (some value,some u)

def hashRoot : Option Mixed → Digest
  | none => emptyHash
  | some t => t.hash

theorem avl_setRoot {m : Option Mixed} (hm : ∀ t ∈ m, t.Avl) (key value : Bytes) (s : Stamp) :
    (setRoot m key value s).Avl := by
  cases m with
  | none => exact ⟨LeafTree.search_leaf ..,LeafTree.balanced_leaf ..⟩
  | some t => exact (hm t rfl).insert key value s

theorem avl_removeRoot {m : Option Mixed} (hm : ∀ t ∈ m, t.Avl) (key : Bytes) (s : Stamp) :
    ∀ t ∈ (removeRoot m key s).2, t.Avl := by
  cases m with
  | none => simp [removeRoot]
  | some t =>
    have ht := hm t rfl
    simp only [removeRoot]
    cases he : t.erase key s with
    | missing => simpa using ht
    | gone value => simp
    | found value u nk => simpa using ht.erase he

section
variable {N : Mixed → Prop} {m : Option Mixed} {s : Stamp} (hs : ∀ u : Mixed, u.ann = s → N u)
include hs

theorem every_setRoot (hm : ∀ t ∈ m, t.Every N) (key value : Bytes) :
    (setRoot m key value s).Every N := by
  cases m with
  | none => exact hs _ rfl
  | some t => exact LeafTree.Every.insert hs key value (hm t rfl)

theorem every_removeRoot (hm : ∀ t ∈ m, t.Every N) (key : Bytes) :
    ∀ t ∈ (removeRoot m key s).2, t.Every N := by
  cases m with
  | none => simp [removeRoot]
  | some t =>
    have ht := hm t rfl
    simp only [removeRoot]
    cases he : t.erase key s with
    | missing => simpa using ht
    | gone value => simp
    | found value u nk => simpa using LeafTree.Every.erase hs ht he

end

end Mixed

/-- What a tree is, apart from where its nodes are kept. -/
structure TreeState where
  version : Version
  pending : Bool
  root : Option Mixed

namespace TreeState
open World Mixed

/-- The effect of an operation on its tree. -/
def apply (s : TreeState) : Op → TreeState
  | .set _ key value =>
    { s with root := some (setRoot s.root key (value.getD []) ⟨s.version+1,none⟩), pending := true }
  | .remove _ key =>
    let p := removeRoot s.root key ⟨s.version+1,none⟩
    { s with root := p.2, pending := s.pending || p.1.isSome }
  | .saveVersion _ _ =>
    if s.version.toNat = maxUint32 then s else { s with version := s.version+1, pending := false }
  | _ => s

def reply (s : TreeState) : Op → Reply
  | .rootHash _ => .hash (hashRoot s.root)
  | .saveVersion _ updateHash =>
    if s.version.toNat = maxUint32 then .error s!"version overflows uint32: {s.version}"
    else .saved (if updateHash then some (hashRoot s.root) else none) (s.version+1)
  | _ => .done

/-- Invariant of one tree. `N` is a property of nodes that nodes in memory always have. -/
structure Ok (N : Mixed → Prop) (s : TreeState) : Prop where
  avl : ∀ t ∈ s.root, t.Avl
  bound : ∀ t ∈ s.root, t.Within (s.version.toNat+1)
  clean : s.pending = false → ∀ t ∈ s.root, t.Within s.version.toNat
  every : ∀ t ∈ s.root, t.Every N

theorem toNat_next {v : Version} (h : v.toNat ≠ maxUint32) : (v+1).toNat = v.toNat+1 := by
  have := v.toNat_lt
  rw [maxUint32] at h
  rw [UInt32.toNat_add]
  simp only [UInt32.reduceToNat]
  omega

theorem toNat_next_le (v : Version) : (v+1).toNat ≤ v.toNat+1 := by
  rw [UInt32.toNat_add]
  simp only [UInt32.reduceToNat]
  omega

theorem Ok.apply {N : Mixed → Prop} (hN : ∀ u : Mixed, u.ann.stored = none → N u)
    {s : TreeState} (hs : s.Ok N) (op : Op) : (s.apply op).Ok N := by
  have hnew : ∀ u : Mixed, u.ann = ⟨s.version+1,none⟩ → N u := fun u hu => hN u (by rw [hu])
  have hbound : ∀ u : Mixed, u.ann = ⟨s.version+1,none⟩ →
      u.ann.stored = none → u.ann.version.toNat ≤ s.version.toNat+1 := by
    intro u hu _
    rw [hu]
    exact toNat_next_le s.version
  cases op with
  | set id key value =>
    refine ⟨?_,?_,by simp [TreeState.apply],?_⟩ <;>
      simp only [TreeState.apply,mem_some_iff,forall_eq']
    · exact avl_setRoot hs.avl key _ _
    · exact every_setRoot hbound hs.bound key _
    · exact every_setRoot hnew hs.every key _
  | remove id key =>
    refine ⟨avl_removeRoot hs.avl key _,every_removeRoot hbound hs.bound key,?_,
      every_removeRoot hnew hs.every key⟩
    intro hp
    -- Nothing is pending only if nothing was removed, and then the tree is the old one.
    simp only [TreeState.apply,Bool.or_eq_false_iff] at hp ⊢
    obtain ⟨hp,hv⟩ := hp
    have hclean := hs.clean hp
    cases hroot : s.root with
    | none => simp [removeRoot]
    | some t =>
      rw [hroot] at hv hclean
      cases he : t.erase key ⟨s.version+1,none⟩ with
      | missing => simpa [removeRoot,he] using hclean
      | gone value => simp [removeRoot,he] at hv
      | found value u nk => simp [removeRoot,he] at hv
  | saveVersion id updateHash =>
    simp only [TreeState.apply]
    split_ifs with hmax
    · exact hs
    · have hle : ∀ t ∈ s.root, t.Within (s.version+1).toNat := by
        rw [toNat_next hmax]
        exact hs.bound
      refine ⟨hs.avl,fun t ht => (hle t ht).mono fun u hu hn => (hu hn).trans (Nat.le_succ _),
        fun _ => hle,hs.every⟩
  | _ => exact hs

end TreeState

/-- The root reference stands for the tree, or both are missing. -/
def RootRep (h : Heap) : Option Node → Option Mixed → Finset ℕ → Prop
  | none, none, F => F = ∅
  | some n, some t, F => Rep h n t F
  | _, _, _ => False

section
variable {h h' : Heap} {root : Option Node} {m : Option Mixed} {F : Finset ℕ}

theorem RootRep.congr (hr : RootRep h root m F) (hs : ∀ a ∈ F, h'.read a = h.read a) :
    RootRep h' root m F := by
  cases root <;> cases m
  · exact hr
  · exact hr.elim
  · exact hr.elim
  · exact Rep.congr hr hs

theorem RootRep.lt (hr : RootRep h root m F) {a : ℕ} (ha : a ∈ F) : a < h.size := by
  cases root <;> cases m
  · rw [show F = ∅ from hr] at ha
    simp at ha
  · exact hr.elim
  · exact hr.elim
  · exact Rep.lt hr ha

theorem RootRep.keeps (hr : RootRep h root m F) (hk : Keeps h h') : RootRep h' root m F := by
  cases root <;> cases m
  · exact hr
  · exact hr.elim
  · exact hr.elim
  · exact hk.rep _ _ _ hr

theorem RootRep.contents (hr : RootRep h root m F) (hm : ∀ t ∈ m, t.Avl) {t : Tree}
    (ht : t.root = root) : t.contents h = some m := by
  cases root <;> cases m
  · simp [Tree.contents,ht]
  · exact hr.elim
  · exact hr.elim
  case some.some n u =>
    have hw := Rep.walk hr (hm u rfl).balanced (Nat.lt_succ_self _)
    simp [Tree.contents,ht,Rep.height_run hr,hw]

end

variable {h : Heap} {F : Finset ℕ}

theorem Rep.version_le {n : Node} {t : Mixed} {b : ℕ} (ht : Rep h n t F) (hb : t.Within b) {a : ℕ}
    {c : MemNode} (ha : a ∈ F) (hc : h.read a = some c) : c.version.toNat ≤ b := by
  induction t generalizing n F with
  | leaf key value s =>
    obtain ⟨hn,-,rfl⟩ := ht
    cases n with
    | persisted p => simp at ha
    | mem a' =>
      obtain rfl := Finset.mem_singleton.mp ha
      obtain ⟨c',hc',-,-,-,-,rfl⟩ := hn
      obtain rfl := some.inj (hc.symm.trans hc')
      exact hb rfl
  | branch height size key s left right ihl ihr =>
    obtain ⟨l,r,Fl,Fr,hn,hl,hr,-,-,-,rfl⟩ := ht
    rcases Finset.mem_union.mp ha with ha | ha
    · cases n with
      | persisted p => simp at ha
      | mem a' =>
        obtain rfl := Finset.mem_singleton.mp ha
        obtain ⟨c',hc',-,-,-,-,-,-,rfl⟩ := hn
        obtain rfl := some.inj (hc.symm.trans hc')
        exact hb.1 rfl
    · rcases Finset.mem_union.mp ha with ha | ha
      · exact ihl hl hb.2.1 ha
      · exact ihr hr hb.2.2 ha

/-- The cells that an update of a tree may change in place. -/
def writable (h : Heap) (F : Finset ℕ) (cow : Version) : Set ℕ :=
  { a | ∀ c, a ∈ F → h.read a = some c → ¬ c.version ≤ cow }

theorem guard_writable (h : Heap) (F : Finset ℕ) (cow : Version) :
    Guard (writable h F cow) cow h F where
  fresh a ha c _ hc := absurd (CellHeap.read_lt hc) (not_lt.mpr ha)
  old a _ hW := by
    simp only [writable,Set.mem_ofPred_eq,not_forall,not_not] at hW
    obtain ⟨c,-,hc,hv⟩ := hW
    exact ⟨c,hc,hv⟩

section
open Mixed

variable {t : Tree} {m : Option Mixed}

section
variable (hr : RootRep h t.root m F)
include hr

theorem Tree.fuel_run : t.fuel h = some (m.elim 1 fun u => u.height+1,h) := by
  cases hroot : t.root <;> cases m <;> rw [hroot] at hr
  · simp [Tree.fuel,hroot]
  · exact hr.elim
  · exact hr.elim
  · simp only [Tree.fuel,hroot,run_bind,Rep.height_run hr,bind_some,run_pure,elim_some]

theorem Tree.set_spec (hm : ∀ u ∈ m, u.Avl) (key : Bytes) (value : Option Bytes) :
    Wp (t.set key value) h fun t' h' => ∃ n F', t' = { t with root := some n } ∧
      Rep h' n (setRoot m key (value.getD []) ⟨t.version+1,none⟩) F' ∧
      Evolves (writable h F t.cowVersion) h F h' F' := by
  refine wp_bind_of (Tree.fuel_run hr) ?_
  cases hroot : t.root <;> cases m <;> rw [hroot] at hr
  · refine wp_bind_of rfl ?_
    rw [wp_pure]
    exact ⟨_,_,rfl,rep_newLeaf ..,evolves_push _⟩
  · exact hr.elim
  · exact hr.elim
  case some.some n u =>
    refine (setRecursive_spec key (value.getD []) hr (hm u rfl).balanced (Nat.lt_succ_self _)
      (guard_writable h F t.cowVersion)).bind ?_
    rintro ⟨a,b⟩ h' ⟨-,F',hrep,he⟩
    rw [wp_pure]
    exact ⟨_,F',rfl,hrep,he⟩

theorem Tree.remove_spec (hm : ∀ u ∈ m, u.Avl) (key : Bytes) :
    Wp (t.remove key) h fun p h' => ∃ root F', p.2 = { t with root := root } ∧
      p.1 = (removeRoot m key ⟨t.version+1,none⟩).1 ∧
      RootRep h' root (removeRoot m key ⟨t.version+1,none⟩).2 F' ∧
      Evolves (writable h F t.cowVersion) h F h' F' := by
  refine wp_bind_of (Tree.fuel_run hr) ?_
  cases hroot : t.root <;> cases m <;> rw [hroot] at hr
  · refine wp_bind_of rfl ?_
    rw [wp_pure]
    exact ⟨none,∅,rfl,rfl,rfl,Evolves.refl (by simp)⟩
  · exact hr.elim
  · exact hr.elim
  case some.some n u =>
    refine (removeRecursive_spec key hr (hm u rfl).balanced (Nat.lt_succ_self _)
      (guard_writable h F t.cowVersion)).bind ?_
    intro p h' hp
    rw [wp_pure]
    simp only [removeRoot]
    cases he : LeafTree.erase key ⟨t.version+1,none⟩ u with
    | missing =>
      rw [he] at hp
      obtain ⟨rfl,rfl⟩ := hp
      exact ⟨some n,F,rfl,rfl,hr,Evolves.refl subset_rfl⟩
    | gone value =>
      rw [he] at hp
      obtain ⟨rfl,rfl⟩ := hp
      exact ⟨none,∅,rfl,rfl,rfl,Evolves.refl (by simp)⟩
    | found value u' nk =>
      rw [he] at hp
      obtain ⟨n',F',rfl,hrep,hev⟩ := hp
      exact ⟨some n',F',rfl,rfl,hrep,hev⟩

theorem Tree.rootHash_spec (hm : ∀ u ∈ m, u.Avl) :
    Wp t.rootHash h fun d h' => d = hashRoot m ∧ Keeps h h' := by
  refine wp_bind_of (Tree.fuel_run hr) ?_
  cases hroot : t.root <;> cases m <;> rw [hroot] at hr
  · exact (wp_pure ..).mpr ⟨rfl,Keeps.refl h⟩
  · exact hr.elim
  · exact hr.elim
  case some.some n u => exact hash_spec hr (hm u rfl).balanced (Nat.lt_succ_self _)

end

end

theorem Rep.persisted_cells {p : PersistedNode} {t : Mixed} (ht : Rep h (.persisted p) t F) :
    F = ∅ := by
  induction t generalizing p F with
  | leaf key value s => exact ht.2.2
  | branch height size key s left right ihl ihr =>
    obtain ⟨l,r,Fl,Fr,⟨-,-,-,-,⟨pl,pr,-,-,rfl,rfl⟩,-⟩,hl,hr,-,-,-,rfl⟩ := ht
    simp [ihl hl,ihr hr]

theorem Tree.copy_fields (t : Tree) : t.copy.2 = t.copy.1 ∧ t.copy.1.root = t.root ∧
    t.copy.1.version = t.version := by
  unfold Tree.copy
  split <;> exact ⟨rfl,rfl,rfl⟩

theorem Tree.copy_cowVersion {t : Tree} {m : Option Mixed} (hr : RootRep h t.root m F)
    (hm : ∀ u ∈ m, u.Within t.version.toNat) (a : ℕ) (c : MemNode) (ha : a ∈ F)
    (hc : h.read a = some c) : c.version ≤ t.copy.1.cowVersion := by
  unfold Tree.copy
  cases hroot : t.root <;> cases m <;> rw [hroot] at hr
  · rw [show F = ∅ from hr] at ha
    simp at ha
  · exact hr.elim
  · exact hr.elim
  case some.some n u =>
    cases n with
    | persisted p =>
      rw [Rep.persisted_cells hr] at ha
      simp at ha
    | mem b => exact UInt32.le_iff_toNat_le.mpr (Rep.version_le hr (hm u rfl) ha hc)

/-- The state of a handle whose tree stands for `m`. -/
def Handle.state (x : Handle) (m : Option Mixed) : TreeState := ⟨x.tree.version,x.pending,m⟩

namespace World

/-- `cells i` are the cells of tree `i`, `view i` is what it stands for. -/
structure Inv (N : Mixed → Prop) (w : World) (cells : ℕ → Finset ℕ) (view : ℕ → Option Mixed) :
    Prop where
  rep : ∀ i x, w.trees i = some x → RootRep w.heap x.tree.root (view i) (cells i)
  ok : ∀ i x, w.trees i = some x → (x.state (view i)).Ok N
  shared : ∀ i j x a c, i ≠ j → w.trees i = some x → (w.trees j).isSome → a ∈ cells i →
    a ∈ cells j → w.heap.read a = some c → c.version ≤ x.tree.cowVersion

section
variable {N : Mixed → Prop} {w : World} {cells : ℕ → Finset ℕ} {view : ℕ → Option Mixed}

theorem inv_empty (N : Mixed → Prop) : empty.Inv N (fun _ => ∅) (fun _ => none) :=
  ⟨by simp [empty],by simp [empty],by simp [empty]⟩

/-- A tree that is updated changes no cell of another tree. -/
theorem Inv.other_read (hw : w.Inv N cells view) {i j : ℕ} {x y : Handle} (hx : w.trees i = some x)
    (hy : w.trees j = some y) (hij : i ≠ j) {h' : Heap} {F' : Finset ℕ}
    (he : Evolves (writable w.heap (cells i) x.tree.cowVersion) w.heap (cells i) h' F') :
    ∀ a ∈ cells j, h'.read a = w.heap.read a := by
  intro a ha
  apply he.same a ((hw.rep j y hy).lt ha)
  intro hai hW
  have hlt := (hw.rep j y hy).lt ha
  obtain ⟨c,hc⟩ : ∃ c, w.heap.read a = some c := ⟨_,List.getElem?_eq_getElem hlt⟩
  exact hW c hai hc (hw.shared i j x a c hij hx (by simp [hy]) hai ha hc)

theorem Inv.update (hw : w.Inv N cells view) {i : ℕ} {x x' : Handle} (hx : w.trees i = some x)
    {h' : Heap} {F' : Finset ℕ} {m' : Option Mixed} (hcow : x'.tree.cowVersion = x.tree.cowVersion)
    (hr : RootRep h' x'.tree.root m' F') (hok : (x'.state m').Ok N)
    (he : Evolves (writable w.heap (cells i) x.tree.cowVersion) w.heap (cells i) h' F') :
    (w.put h' i x').Inv N (Function.update cells i F') (Function.update view i m') where
  rep j y hy := by
    by_cases hji : j = i
    · subst hji
      simp only [put,Function.update_self,some.injEq] at hy ⊢
      exact hy ▸ hr
    · simp only [put,Function.update_of_ne hji] at hy ⊢
      exact (hw.rep j y hy).congr (hw.other_read hx hy (Ne.symm hji) he)
  ok j y hy := by
    by_cases hji : j = i
    · subst hji
      simp only [put,Function.update_self,some.injEq] at hy ⊢
      exact hy ▸ hok
    · simp only [put,Function.update_of_ne hji] at hy ⊢
      exact hw.ok j y hy
  shared j k y a c hjk hy hk haj hak hc := by
    -- A cell of another tree is old and unchanged, so that the old bound still applies.
    have hold : ∀ z l, w.trees l = some z → l ≠ i → a ∈ cells l →
        h'.read a = w.heap.read a ∧ (a ∈ F' → a ∈ cells i) := by
      intro z l hz hl ha
      exact ⟨hw.other_read hx hz (Ne.symm hl) he a ha,fun hF =>
        (he.new a hF).resolve_right (not_le.mpr ((hw.rep l z hz).lt ha))⟩
    change h'.read a = some c at hc
    by_cases hji : j = i
    · subst hji
      simp only [put,Function.update_self,some.injEq,Function.update_of_ne hjk.symm]
        at hy hk haj hak
      obtain ⟨z,hz⟩ := isSome_iff_exists.mp hk
      obtain ⟨hread,hF⟩ := hold z k hz hjk.symm hak
      rw [← hy,hcow]
      exact hw.shared j k x a c hjk hx hk (hF haj) hak (hread ▸ hc)
    · simp only [put,Function.update_of_ne hji] at hy haj
      obtain ⟨hread,hF⟩ := hold y j hy hji haj
      by_cases hki : k = i
      · subst hki
        simp only [Function.update_self] at hak
        exact hw.shared j k y a c hjk hy (by simp [hx]) haj (hF hak) (hread ▸ hc)
      · simp only [put,Function.update_of_ne hki] at hk hak
        exact hw.shared j k y a c hjk hy hk haj hak (hread ▸ hc)

theorem Inv.keeps (hw : w.Inv N cells view) {h' : Heap} (hk : Keeps w.heap h') :
    ({ w with heap := h' } : World).Inv N cells view where
  rep i x hx := (hw.rep i x hx).keeps hk
  ok := hw.ok
  shared i j x a c hij hx hj hai haj hc := by
    have hv := hk.version a
    change h'.read a = some c at hc
    obtain ⟨c',hc',hcv⟩ : ∃ c', w.heap.read a = some c' ∧ c'.version = c.version := by
      rw [hc,map_some] at hv
      exact map_eq_some_iff.mp hv.symm
    rw [← hcv]
    exact hw.shared i j x a c' hij hx hj hai haj hc'

theorem Inv.add (hw : w.Inv N cells view) {i : ℕ} {x : Handle} {m : Option Mixed}
    (hr : RootRep w.heap x.tree.root m ∅) (hok : (x.state m).Ok N) :
    (w.put w.heap i x).Inv N (Function.update cells i ∅) (Function.update view i m) where
  rep j y hy := by
    by_cases hji : j = i
    · subst hji
      simp only [put,Function.update_self,some.injEq] at hy ⊢
      exact hy ▸ hr
    · simp only [put,Function.update_of_ne hji] at hy ⊢
      exact hw.rep j y hy
  ok j y hy := by
    by_cases hji : j = i
    · subst hji
      simp only [put,Function.update_self,some.injEq] at hy ⊢
      exact hy ▸ hok
    · simp only [put,Function.update_of_ne hji] at hy ⊢
      exact hw.ok j y hy
  shared j k y a c hjk hy hk haj hak hc := by
    by_cases hji : j = i
    · subst hji
      simp at haj
    by_cases hki : k = i
    · subst hki
      simp at hak
    simp only [put,Function.update_of_ne hji,Function.update_of_ne hki] at hy hk haj hak
    exact hw.shared j k y a c hjk hy hk haj hak hc

theorem Inv.copy (hw : w.Inv N cells view) {i dst : ℕ} {x : Handle} (hx : w.trees i = some x)
    (hp : x.pending = false) (hdst : w.trees dst = none) :
    ((w.put w.heap i ⟨x.tree.copy.1,x.pending⟩).put w.heap dst ⟨x.tree.copy.2,x.pending⟩).Inv N
      (Function.update cells dst (cells i)) (Function.update view dst (view i)) := by
  obtain ⟨hsame,hroot,hversion⟩ := x.tree.copy_fields
  have hcover := Tree.copy_cowVersion (hw.rep i x hx) ((hw.ok i x hx).clean hp)
  have hne : dst ≠ i := by
    rintro rfl
    simp [hx] at hdst
  rw [hsame]
  generalize x.tree.copy.1 = t at *
  have hstate : (⟨t,x.pending⟩ : Handle).state (view i) = x.state (view i) := by
    simp [Handle.state,hversion]
  -- The three kinds of trees: the copy, the original and the others.
  refine ⟨fun j y hy => ?_,fun j y hy => ?_,fun j k y a c hjk hy hk haj hak hc => ?_⟩
  · by_cases hjd : j = dst
    · subst hjd
      simp only [put,Function.update_self,some.injEq] at hy ⊢
      rw [← hy,hroot]
      exact hw.rep i x hx
    · simp only [put,Function.update_of_ne hjd] at hy ⊢
      by_cases hji : j = i
      · subst hji
        simp only [Function.update_self,some.injEq] at hy
        rw [← hy,hroot]
        exact hw.rep j x hx
      · rw [Function.update_of_ne hji] at hy
        exact hw.rep j y hy
  · by_cases hjd : j = dst
    · subst hjd
      simp only [put,Function.update_self,some.injEq] at hy ⊢
      rw [← hy,hstate]
      exact hw.ok i x hx
    · simp only [put,Function.update_of_ne hjd] at hy ⊢
      by_cases hji : j = i
      · subst hji
        simp only [Function.update_self,some.injEq] at hy
        rw [← hy,hstate]
        exact hw.ok j x hx
      · rw [Function.update_of_ne hji] at hy
        exact hw.ok j y hy
  · by_cases hjd : j = dst
    · subst hjd
      simp only [put,Function.update_self,some.injEq] at hy haj
      exact hy ▸ hcover a c haj hc
    simp only [put,Function.update_of_ne hjd] at hy haj
    by_cases hji : j = i
    · subst hji
      simp only [Function.update_self,some.injEq] at hy
      exact hy ▸ hcover a c haj hc
    rw [Function.update_of_ne hji] at hy
    by_cases hkd : k = dst
    · subst hkd
      simp only [Function.update_self] at hak
      exact hw.shared j i y a c hji hy (by simp [hx]) haj hak hc
    · simp only [put,Function.update_of_ne hkd] at hk hak
      have hk' : (w.trees k).isSome := by
        by_cases hki : k = i
        · simp [hki,hx]
        · rwa [Function.update_of_ne hki] at hk
      exact hw.shared j k y a c hjk hy hk' haj hak hc

end

end World

theorem Tree.saveVersion_spec {t : Tree} {m : Option Mixed} (hr : RootRep h t.root m F)
    (hm : ∀ u ∈ m, u.Avl) (updateHash : Bool) :
    Wp (t.saveVersion updateHash) h fun p h' => Keeps h h' ∧
      p = if t.version.toNat = maxUint32 then .error s!"version overflows uint32: {t.version}"
        else .ok (if updateHash then some (Mixed.hashRoot m) else none,
          { t with version := t.version+1 }) := by
  unfold Tree.saveVersion
  by_cases hmax : t.version.toNat = maxUint32
  · rw [if_pos hmax,if_pos hmax,wp_pure]
    exact ⟨Keeps.refl h,rfl⟩
  rw [if_neg hmax,if_neg hmax]
  cases updateHash with
  | false => exact wp_bind_of rfl ((wp_pure ..).mpr ⟨Keeps.refl h,rfl⟩)
  | true =>
    refine (Tree.rootHash_spec hr hm).bind ?_
    rintro _ h' ⟨rfl,hk⟩
    exact (wp_pure ..).mpr ⟨hk,rfl⟩

theorem rootRep_snapshot (h : Heap) {s : Snapshot} {root : Option Persisted}
    (hs : s.tree = some root) :
    RootRep h (s.rootNode.map .persisted) (root.map (LeafTree.mapAnn NodeInfo.stamp)) ∅ := by
  unfold Snapshot.tree at hs
  cases hroot : s.rootNode with
  | none =>
    rw [hroot] at hs
    obtain rfl := some.inj hs
    rfl
  | some p =>
    rw [hroot] at hs
    obtain ⟨t,ht,rfl⟩ := map_eq_some_iff.mp hs
    exact rep_persisted ht

theorem within_stamp (b : ℕ) (t : Persisted) : Mixed.Within b (t.mapAnn NodeInfo.stamp) := by
  induction t with
  | leaf key value i =>
    intro h
    simp [LeafTree.ann,NodeInfo.stamp] at h
  | branch height size key i left right ihl ihr =>
    refine ⟨?_,ihl,ihr⟩
    intro h
    simp [LeafTree.ann,NodeInfo.stamp] at h

namespace World

/-- Some assignment of cells and contents fits the world. -/
def Good (N : Mixed → Prop) (w : World) : Prop := ∃ cells view, w.Inv N cells view

def state (w : World) (i : ℕ) : Option TreeState := do
  let x ← w.trees i
  let root ← x.tree.contents w.heap
  some (x.state root)

/-- The name an operation gives to a new tree. -/
def Op.creates : Op → Option ℕ
  | .newEmptyTree id _ | .newFromSnapshot id _ => some id
  | .copy _ dst => some dst
  | _ => none

section
variable {N : Mixed → Prop} {P : Snapshot → Prop} {w : World} {cells : ℕ → Finset ℕ}
  {view : ℕ → Option Mixed}

variable {i : ℕ} {x : Handle} {r : Reply}

theorem Inv.state_eq (hw : w.Inv N cells view) (hx : w.trees i = some x) :
    w.state i = some (x.state (view i)) := by
  have hc := (hw.rep i x hx).contents (hw.ok i x hx).avl rfl
  simp [state,hx,hc]

theorem trees_of_state {s : TreeState} (hs : w.state i = some s) : ∃ x, w.trees i = some x := by
  cases hx : w.trees i with
  | none => simp [state,hx] at hs
  | some x => exact ⟨x,rfl⟩

/-- What one operation does: its own tree changes as `apply` says and the reply is that of
`reply`, every other tree stays as it is. -/
structure Stepped (N : Mixed → Prop) (w : World) (op : Op) (r : Reply) (w' : World) : Prop where
  good : w'.Good N
  own : ∀ s, w.state op.on = some s → w'.state op.on = some (s.apply op) ∧ r = s.reply op
  other : ∀ i s, i ≠ op.on → w.state i = some s → w'.state i = some s
  created : ∀ i, w.trees i = none → (w'.trees i).isSome → op.creates = some i
  makes : ∀ i, op.creates = some i → (w'.trees i).isSome

theorem stepped_put (op : Op) {h' : Heap} {x' : Handle} {F' : Finset ℕ} {m' : Option Mixed}
    (hw : w.Inv N cells view) (hx : w.trees op.on = some x)
    (hw' : (w.put h' op.on x').Inv N (Function.update cells op.on F') (Function.update view op.on m'))
    (hs : x'.state m' = (x.state (view op.on)).apply op) (hr : r = (x.state (view op.on)).reply op)
    (hop : op.creates = none) :
    Stepped N w op r (w.put h' op.on x') where
  good := ⟨_,_,hw'⟩
  own s hs' := by
    obtain rfl := some.inj ((hw.state_eq hx).symm.trans hs')
    have h := hw'.state_eq (i := op.on) (x := x') (by simp [put])
    rw [Function.update_self,hs] at h
    exact ⟨h,hr⟩
  other i s hi hs' := by
    obtain ⟨y,hy⟩ := trees_of_state hs'
    obtain rfl := some.inj ((hw.state_eq hy).symm.trans hs')
    have h := hw'.state_eq (i := i) (x := y) (by simp [put,Function.update_of_ne hi,hy])
    rwa [Function.update_of_ne hi] at h
  created i hi hi' := by
    by_cases h : i = op.on
    · simp [h,hx] at hi
    · simp [put,Function.update_of_ne h,hi] at hi'
  makes i hi := by simp [hop] at hi

theorem stepped_add (op : Op) {m : Option Mixed} (hw : w.Inv N cells view)
    (hfree : w.trees op.on = none) (hop : op.creates = some op.on)
    (hr : RootRep w.heap x.tree.root m ∅) (hok : (x.state m).Ok N) :
    Stepped N w op r (w.put w.heap op.on x) where
  good := ⟨_,_,hw.add hr hok⟩
  own s hs := by
    obtain ⟨y,hy⟩ := trees_of_state hs
    simp [hfree] at hy
  other i s hi hs := by
    obtain ⟨y,hy⟩ := trees_of_state hs
    obtain rfl := some.inj ((hw.state_eq hy).symm.trans hs)
    have h := (hw.add (i := op.on) hr hok).state_eq (i := i) (x := y)
      (by simp [put,Function.update_of_ne hi,hy])
    rwa [Function.update_of_ne hi] at h
  created i hi hi' := by
    by_cases h : i = op.on
    · rw [h,hop]
    · simp [put,Function.update_of_ne h,hi] at hi'
  makes i hi := by
    rw [hop,some.injEq] at hi
    simp [put,← hi]

theorem stepped_keeps (op : Op) {h' : Heap} (hw : w.Inv N cells view) (hx : w.trees op.on = some x)
    (hk : Keeps w.heap h') (hs : (x.state (view op.on)).apply op = x.state (view op.on))
    (hr : r = (x.state (view op.on)).reply op) (hop : op.creates = none) :
    Stepped N w op r { w with heap := h' } where
  good := ⟨_,_,hw.keeps hk⟩
  own s hs' := by
    obtain rfl := some.inj ((hw.state_eq hx).symm.trans hs')
    exact ⟨hs.symm ▸ (hw.keeps hk).state_eq hx,hr⟩
  other i s hi hs' := by
    obtain ⟨y,hy⟩ := trees_of_state hs'
    obtain rfl := some.inj ((hw.state_eq hy).symm.trans hs')
    exact (hw.keeps hk).state_eq hy
  created i hi hi' := by simp [hi] at hi'
  makes i hi := by simp [hop] at hi

theorem stepped_copy {dst : ℕ} (hw : w.Inv N cells view) (hx : w.trees i = some x)
    (hp : x.pending = false) (hdst : w.trees dst = none) :
    Stepped N w (.copy i dst) .done
      ((w.put w.heap i ⟨x.tree.copy.1,x.pending⟩).put w.heap dst ⟨x.tree.copy.2,x.pending⟩) where
  good := ⟨_,_,hw.copy hx hp hdst⟩
  own s hs := by
    obtain rfl := some.inj ((hw.state_eq hx).symm.trans hs)
    have hne : i ≠ dst := by
      rintro rfl
      simp [hx] at hdst
    have h := (hw.copy hx hp hdst).state_eq (i := i) (x := ⟨x.tree.copy.1,x.pending⟩)
      (by simp [put,Function.update_of_ne hne])
    rw [Function.update_of_ne hne] at h
    refine ⟨h.trans ?_,rfl⟩
    simp [Handle.state,TreeState.apply,x.tree.copy_fields.2.2]
  other j s hj hs := by
    obtain ⟨y,hy⟩ := trees_of_state hs
    obtain rfl := some.inj ((hw.state_eq hy).symm.trans hs)
    have hji : j ≠ i := hj
    have hne : j ≠ dst := by
      rintro rfl
      simp [hy] at hdst
    have h := (hw.copy hx hp hdst).state_eq (i := j) (x := y)
      (by simp only [put,Function.update_of_ne hne]; rwa [Function.update_of_ne hji])
    rwa [Function.update_of_ne hne] at h
  created j hj hj' := by
    by_cases hjd : j = dst
    · rw [hjd]
      rfl
    by_cases hji : j = i
    · simp [hji,hx] at hj
    · simp [put,Function.update_of_ne hjd,Function.update_of_ne hji,hj] at hj'
  makes j hj := by
    obtain rfl : dst = j := by simpa [Op.creates] using hj
    simp [put]

/-- Every allowed operation returns, and does what it should. -/
theorem Good.step (hN : ∀ u : Mixed, u.ann.stored = none → N u)
    (hP : ∀ s, P s → ∃ root, s.tree = some root ∧ (∀ t ∈ root, t.Avl) ∧
      ∀ t ∈ root, LeafTree.Every N (t.mapAnn NodeInfo.stamp))
    (hw : w.Good N) {op : Op} (hop : w.Allowed P op) :
    ∃ r w', w.step op = some (r,w') ∧ Stepped N w op r w' := by
  obtain ⟨cells,view,hw⟩ := hw
  cases op with
  | newEmptyTree id version =>
    obtain ⟨hfree,hv⟩ := hop
    refine ⟨_,_,by simp only [World.step,Tree.newEmptyTree,if_neg (not_le.mpr hv),
      bind_eq_bind,bind_some]; rfl,?_⟩
    refine stepped_add (m := none) (.newEmptyTree id version) hw hfree rfl rfl ?_
    constructor <;> simp [Handle.state]
  | newFromSnapshot id s =>
    obtain ⟨hfree,hs⟩ := hop
    obtain ⟨root,hroot,havl,hevery⟩ := hP s hs
    refine ⟨_,_,rfl,stepped_add (.newFromSnapshot id s) hw hfree rfl
      (rootRep_snapshot w.heap hroot) ?_⟩
    constructor <;> simp only [Handle.state,Option.mem_map,forall_exists_index,and_imp,
      forall_apply_eq_imp_iff₂]
    · exact fun t ht => (LeafTree.avl_mapAnn _ t).mpr (havl t ht)
    · exact fun t _ => within_stamp _ t
    · exact fun _ t _ => within_stamp _ t
    · exact hevery
  | set id key value =>
    obtain ⟨x,hx⟩ := isSome_iff_exists.mp hop
    have hok := (hw.ok id x hx).apply hN (.set id key value)
    obtain ⟨t',h',hrun,n,F',rfl,hrep,he⟩ :=
      Tree.set_spec (hw.rep id x hx) (hw.ok id x hx).avl key value
    have hrep' : RootRep h' (some n) (some _) F' := hrep
    refine ⟨_,_,by simp only [World.step,hx,hrun,bind_eq_bind,bind_some]; rfl,?_⟩
    exact stepped_put (.set id key value) hw hx (hw.update hx rfl hrep' hok he) rfl rfl rfl
  | remove id key =>
    obtain ⟨x,hx⟩ := isSome_iff_exists.mp hop
    have hok := (hw.ok id x hx).apply hN (.remove id key)
    obtain ⟨⟨value,t'⟩,h',hrun,n,F',rfl,rfl,hrep,he⟩ :=
      Tree.remove_spec (hw.rep id x hx) (hw.ok id x hx).avl key
    refine ⟨_,_,by simp only [World.step,hx,hrun,bind_eq_bind,bind_some]; rfl,?_⟩
    exact stepped_put (.remove id key) hw hx (hw.update hx rfl hrep hok he) rfl rfl rfl
  | rootHash id =>
    obtain ⟨x,hx⟩ := isSome_iff_exists.mp hop
    obtain ⟨d,h',hrun,rfl,hk⟩ := Tree.rootHash_spec (hw.rep id x hx) (hw.ok id x hx).avl
    refine ⟨_,_,by simp only [World.step,hx,hrun,bind_eq_bind,bind_some]; rfl,?_⟩
    exact stepped_keeps (.rootHash id) hw hx hk rfl rfl rfl
  | saveVersion id updateHash =>
    obtain ⟨x,hx⟩ := isSome_iff_exists.mp hop
    have hok := (hw.ok id x hx).apply hN (.saveVersion id updateHash)
    obtain ⟨p,h',hrun,hk,hp⟩ :=
      Tree.saveVersion_spec (hw.rep id x hx) (hw.ok id x hx).avl updateHash
    by_cases hmax : x.tree.version.toNat = maxUint32
    · rw [if_pos hmax] at hp
      refine ⟨_,_,by simp only [World.step,hx,hrun,hp,bind_eq_bind,bind_some]; rfl,?_⟩
      exact stepped_keeps (.saveVersion id updateHash) hw hx hk
        (by simp [Handle.state,TreeState.apply,hmax]) (by simp [Handle.state,TreeState.reply,hmax])
        rfl
    · rw [if_neg hmax] at hp
      have hstate : (x.state (view id)).apply (.saveVersion id updateHash) =
          ⟨x.tree.version+1,false,view id⟩ := by
        simp [Handle.state,TreeState.apply,hmax]
      refine ⟨_,_,by simp only [World.step,hx,hrun,hp,bind_eq_bind,bind_some]; rfl,?_⟩
      rw [hstate] at hok
      refine stepped_put (.saveVersion id updateHash) hw hx ((hw.keeps hk).update hx rfl
        ((hw.rep id x hx).keeps hk) hok (Evolves.refl subset_rfl)) hstate.symm ?_ rfl
      simp [Handle.state,TreeState.reply,hmax,Op.on]
  | copy id dst =>
    obtain ⟨hdst,x,hx,hp⟩ := hop
    refine ⟨_,_,by simp only [World.step,hx,bind_eq_bind,bind_some]; rfl,?_⟩
    exact stepped_copy hw hx hp hdst

end

end World

end Memiavl
