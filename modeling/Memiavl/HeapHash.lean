import Memiavl.HeapRep

/-! Hashing and reading trees in the heap. `Hash` writes into cells that other trees may
share; it changes nothing that a tree stands for. -/
namespace Memiavl

open HeapM Option

/-- A step that leaves every tree of the heap as it is. -/
structure Keeps (h h' : Heap) : Prop where
  rep : ∀ n t F, Rep h n t F → Rep h' n t F
  version : ∀ a, (h'.read a).map MemNode.version = (h.read a).map MemNode.version
  size : h'.size = h.size

theorem Keeps.refl (h : Heap) : Keeps h h := ⟨fun _ _ _ ht => ht,fun _ => rfl,rfl⟩

theorem Keeps.trans {h h' h'' : Heap} (h₁ : Keeps h h') (h₂ : Keeps h' h'') : Keeps h h'' :=
  ⟨fun n t F ht => h₂.rep n t F (h₁.rep n t F ht),fun a => (h₂.version a).trans (h₁.version a),
    h₂.size.trans h₁.size⟩

section
variable {h : Heap} {a : ℕ} {c : MemNode} {n : Node} {t : Mixed} {F : Finset ℕ}

theorem Node.IsLeaf.cache {key value : Bytes} {s : Stamp} (hn : n.IsLeaf h key value s)
    (hc : h.read a = some c) (d : Option Digest) :
    n.IsLeaf (h.write a { c with hash := d }) key value s := by
  cases n with
  | persisted p => exact hn
  | mem b =>
    by_cases hb : b = a
    · subst hb
      obtain ⟨c',hc',hf⟩ := hn
      obtain rfl := some.inj (hc.symm.trans hc')
      exact ⟨_,CellHeap.read_write_self _ hc,hf⟩
    · simpa only [Node.IsLeaf,CellHeap.read_write_ne _ hb] using hn

theorem Node.IsBranch.cache {height size : ℕ} {key : Bytes} {s : Stamp} {l r : Node}
    (hn : n.IsBranch h height size key s l r) (hc : h.read a = some c) (d : Option Digest) :
    n.IsBranch (h.write a { c with hash := d }) height size key s l r := by
  cases n with
  | persisted p => exact hn
  | mem b =>
    by_cases hb : b = a
    · subst hb
      obtain ⟨c',hc',hf⟩ := hn
      obtain rfl := some.inj (hc.symm.trans hc')
      exact ⟨_,CellHeap.read_write_self _ hc,hf⟩
    · simpa only [Node.IsBranch,CellHeap.read_write_ne _ hb] using hn

theorem Node.CacheOk.cache {d d' : Digest} (hn : n.CacheOk h d) (hc : h.read a = some c)
    (hd : n = .mem a → d' = d) : n.CacheOk (h.write a { c with hash := some d' }) d := by
  cases n with
  | persisted p => exact hn
  | mem b =>
    by_cases hb : b = a
    · subst hb
      intro c' hc' x hx
      obtain rfl := some.inj ((CellHeap.read_write_self _ hc).symm.trans hc')
      rw [← hd rfl]
      simpa using hx.symm
    · simpa only [Node.CacheOk,CellHeap.read_write_ne _ hb] using hn

/-- Keeping the right hash in a cell is invisible: whoever reaches the cell finds the
same subtree below it. -/
theorem keeps_cache (hc : h.read a = some c) (ht : Rep h (.mem a) t F) :
    Keeps h (h.write a { c with hash := some t.hash }) where
  size := by simp
  version b := by
    by_cases hb : b = a
    · subst hb
      simp [CellHeap.read_write_self _ hc,hc]
    · rw [CellHeap.read_write_ne _ hb]
  rep n t' F' hn := by
    have hd : ∀ n u G, Rep h n u G → n = .mem a → t.hash = u.hash := by
      rintro _ u G hu rfl
      rw [(ht.unique hu).1]
    induction t' generalizing n F' with
    | leaf key value s =>
      have hroot := hd n _ _ hn
      obtain ⟨hn,hcache,rfl⟩ := hn
      exact ⟨hn.cache hc _,hcache.cache hc hroot,rfl⟩
    | branch height size key s left right ihl ihr =>
      have hroot := hd n _ _ hn
      obtain ⟨l,r,Fl,Fr,hn,hl,hr,hdis,hself,hcache,rfl⟩ := hn
      exact ⟨l,r,Fl,Fr,hn.cache hc _,ihl _ _ hl,ihr _ _ hr,hdis,hself,hcache.cache hc hroot,rfl⟩

end

theorem Rep.mem_read {h : Heap} {a : ℕ} {t : Mixed} {F : Finset ℕ} (ht : Rep h (.mem a) t F) :
    ∃ c, h.read a = some c := by
  cases t with
  | leaf key value s =>
    obtain ⟨⟨c,hc,-⟩,-⟩ := ht
    exact ⟨c,hc⟩
  | branch height size key s left right =>
    obtain ⟨l,r,Fl,Fr,⟨c,hc,-⟩,-⟩ := ht
    exact ⟨c,hc⟩

/-- A stored hash is the hash of the tree. -/
theorem Rep.hash_persisted {h : Heap} {p : PersistedNode} {t : Mixed} {F : Finset ℕ}
    (ht : Rep h (.persisted p) t F) : p.hash = some t.hash := by
  cases t with
  | leaf key value s =>
    obtain ⟨⟨-,-,v,d,-,hd,rfl⟩,-⟩ := ht
    exact hd
  | branch height size key s left right =>
    obtain ⟨l,r,Fl,Fr,⟨-,-,-,-,-,v,d,-,hd,rfl⟩,-⟩ := ht
    exact hd

/-- `Hash` returns the hash of the tree, whatever is cached. -/
theorem hash_spec {h : Heap} {n : Node} {t : Mixed} {F : Finset ℕ} {fuel : ℕ} (ht : Rep h n t F)
    (hbal : t.Balanced) (hf : t.height < fuel) :
    Wp (n.hash fuel) h fun d h' => d = t.hash ∧ Keeps h h' := by
  induction t generalizing n F h fuel with
  | leaf key value s =>
    obtain _ | fuel := fuel
    · omega
    cases n with
    | persisted p => exact ⟨_,h,by simp [Node.hash,ht.hash_persisted],rfl,Keeps.refl h⟩
    | mem a =>
      have ht' := ht
      obtain ⟨⟨c,hc,h0,h1,rfl,hv,rfl⟩,hcache,-⟩ := ht'
      refine wp_bind_of (load_of hc) ?_
      cases hhash : c.hash with
      | some d => exact (wp_pure ..).mpr ⟨hcache c hc d hhash,Keeps.refl h⟩
      | none =>
        simp only [h0,hv,if_true,getD_some]
        refine wp_bind_of (modify_of _ hc) ((wp_pure ..).mpr ⟨rfl,?_⟩)
        exact keeps_cache hc ht
  | branch height size key s left right ihl ihr =>
    obtain _ | fuel := fuel
    · omega
    cases n with
    | persisted p => exact ⟨_,h,by simp [Node.hash,ht.hash_persisted],rfl,Keeps.refl h⟩
    | mem a =>
      have ht' := ht
      obtain ⟨l,r,Fl,Fr,⟨c,hc,rfl,h0,rfl,rfl,hl,hr,rfl⟩,hL,hR,-,-,hcache,-⟩ := ht'
      obtain ⟨hbl,hbr,hheight,-⟩ := hbal
      simp only [LeafTree.height_branch] at hf
      refine wp_bind_of (load_of hc) ?_
      cases hhash : c.hash with
      | some d => exact (wp_pure ..).mpr ⟨hcache c hc d hhash,Keeps.refl h⟩
      | none =>
        simp only [h0,hl,hr,if_false]
        refine wp_bind_of (lift_some _ _) (wp_bind_of (lift_some _ _) ?_)
        refine (@ihl _ _ _ fuel hL hbl (by omega)).bind ?_
        rintro _ h₁ ⟨rfl,hk₁⟩
        refine (@ihr _ _ _ fuel (hk₁.rep _ _ _ hR) hbr (by omega)).bind ?_
        rintro _ h₂ ⟨rfl,hk₂⟩
        have ht₂ := (hk₁.trans hk₂).rep _ _ _ ht
        obtain ⟨c₂,hc₂⟩ := ht₂.mem_read
        refine wp_bind_of (modify_of _ hc₂) ((wp_pure ..).mpr ⟨rfl,?_⟩)
        exact (hk₁.trans hk₂).trans (keeps_cache hc₂ ht₂)

/-- The tree of a snapshot is represented by its root, in no cell at all. -/
theorem rep_persisted {h : Heap} {p : PersistedNode} {t : Persisted} {fuel : ℕ}
    (hw : p.walk fuel = some t) : Rep h (.persisted p) (t.mapAnn NodeInfo.stamp) ∅ := by
  induction t generalizing p fuel with
  | leaf key value i =>
    obtain _ | fuel := fuel
    · simp [PersistedNode.walk] at hw
    simp only [PersistedNode.walk,bind_eq_bind,bind_eq_some_iff] at hw
    obtain ⟨v,hv,d,hd,k,hk,hw⟩ := hw
    by_cases hp : p.isLeaf = true
    · rw [if_pos hp] at hw
      simp only [bind_eq_some_iff,some.injEq,LeafTree.leaf.injEq] at hw
      obtain ⟨x,hx,rfl,rfl,rfl⟩ := hw
      obtain ⟨⟨k',x'⟩,hkv,rfl⟩ := map_eq_some_iff.mp hx
      have hkey : k' = k := by
        simpa [PersistedNode.key,hp,leafKey_of_leafKeyValue hkv] using hk
      subst hkey
      exact ⟨⟨hp,hkv,v,d,hv,hd,rfl⟩,trivial,rfl⟩
    · rw [if_neg hp] at hw
      simp [bind_eq_some_iff] at hw
  | branch height size key i left right ihl ihr =>
    obtain _ | fuel := fuel
    · simp [PersistedNode.walk] at hw
    simp only [PersistedNode.walk,bind_eq_bind,bind_eq_some_iff] at hw
    obtain ⟨v,hv,d,hd,k,hk,hw⟩ := hw
    by_cases hp : p.isLeaf = true
    · rw [if_pos hp] at hw
      simp [bind_eq_some_iff] at hw
    · rw [if_neg hp] at hw
      simp only [bind_eq_some_iff,some.injEq,LeafTree.branch.injEq] at hw
      obtain ⟨x,hx,y,hy,pl,hpl,pr,hpr,tl,htl,tr,htr,rfl,rfl,rfl,rfl,rfl,rfl⟩ := hw
      rw [Bool.not_eq_true] at hp
      exact ⟨.persisted pl,.persisted pr,∅,∅,⟨hp,by rw [hx]; rfl,hy,hk,
        ⟨pl,pr,hpl,hpr,rfl,rfl⟩,v,d,hv,hd,rfl⟩,ihl htl,ihr htr,by simp,by simp,trivial,by simp⟩

theorem Rep.walk {h : Heap} {n : Node} {t : Mixed} {F : Finset ℕ} {fuel : ℕ} (ht : Rep h n t F)
    (hbal : t.Balanced) (hf : t.height < fuel) : Node.walk h fuel n = some t := by
  induction t generalizing n F fuel with
  | leaf key value s =>
    obtain _ | fuel := fuel
    · omega
    cases n with
    | persisted p =>
      obtain ⟨⟨hp,hkv,v,d,hv,hd,rfl⟩,-⟩ := ht
      simp [Node.walk,PersistedNode.walk,PersistedNode.key,PersistedNode.value,hp,hkv,hv,hd,
        leafKey_of_leafKeyValue hkv,LeafTree.mapAnn,NodeInfo.stamp]
    | mem a =>
      obtain ⟨⟨c,hc,h0,h1,rfl,hv,rfl⟩,-⟩ := ht
      simp [Node.walk,hc,h0,h1,hv]
  | branch height size key s left right ihl ihr =>
    obtain _ | fuel := fuel
    · omega
    obtain ⟨hbl,hbr,hheight,-⟩ := hbal
    simp only [LeafTree.height_branch] at hf
    obtain ⟨l,r,Fl,Fr,hn,hL,hR,-⟩ := ht
    have hl := @ihl _ _ fuel hL hbl (by omega)
    have hr := @ihr _ _ fuel hR hbr (by omega)
    cases n with
    | persisted p =>
      obtain ⟨hp,hh,hs,hk,⟨pl,pr,hpl,hpr,rfl,rfl⟩,v,d,hv,hd,rfl⟩ := hn
      obtain ⟨x,hx,rfl⟩ := map_eq_some_iff.mp hh
      simp only [Node.walk,map_eq_some_iff] at hl hr ⊢
      obtain ⟨tl,htl,rfl⟩ := hl
      obtain ⟨tr,htr,rfl⟩ := hr
      refine ⟨.branch x.toNat size key ⟨v,d⟩ tl tr,?_,rfl⟩
      simp [PersistedNode.walk,hp,hx,hs,hk,hpl,hpr,htl,htr,hv,hd]
    | mem a =>
      obtain ⟨c,hc,rfl,h0,rfl,rfl,hcl,hcr,rfl⟩ := hn
      simp [Node.walk,hc,h0,hcl,hcr,hl,hr]

end Memiavl
