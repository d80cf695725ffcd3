import Memiavl.HeapRep

/-! The updates of a tree in the heap compute the updates of `LeafTree`. `W` are the cells
that may be changed in place; every other cell of the tree is protected by its version,
which is at most `cowVersion`. -/
namespace Memiavl

open HeapM MemNode Option

/-- A step from `h` to `h'` that turns a tree with cells `F` into one with cells `F'`:
it changes only cells of `F` in `W`, and takes only new cells. -/
structure Evolves (W : Set ℕ) (h : Heap) (F : Finset ℕ) (h' : Heap) (F' : Finset ℕ) : Prop where
  size_le : h.size ≤ h'.size
  same : ∀ a < h.size, (a ∈ F → a ∉ W) → h'.read a = h.read a
  new : ∀ a ∈ F', a ∈ F ∨ h.size ≤ a

/-- Cells of `F` outside `W` are at most of version `w`, and all new cells are in `W`. -/
structure Guard (W : Set ℕ) (w : Version) (h : Heap) (F : Finset ℕ) : Prop where
  fresh : ∀ a, h.size ≤ a → a ∈ W
  old : ∀ a ∈ F, a ∉ W → ∃ c, h.read a = some c ∧ c.version ≤ w

section
variable {W : Set ℕ} {w : Version} {h h' h'' : Heap} {F F' F'' G G' : Finset ℕ} {n : Node}
  {t : Mixed}

theorem Evolves.refl (hG : G ⊆ F) : Evolves W h F h G :=
  ⟨le_rfl,fun _ _ _ => rfl,fun _ ha => .inl (hG ha)⟩

theorem Evolves.trans (h₁ : Evolves W h F h' F') (h₂ : Evolves W h' F' h'' F'') :
    Evolves W h F h'' F'' where
  size_le := h₁.size_le.trans h₂.size_le
  same a ha hF := by
    have hF' : a ∈ F' → a ∉ W := fun ha' => hF ((h₁.new a ha').resolve_right (not_le.mpr ha))
    rw [h₂.same a (ha.trans_le h₁.size_le) hF',h₁.same a ha hF]
  new a ha := by
    rcases h₂.new a ha with ha | ha
    · exact h₁.new a ha
    · exact .inr (h₁.size_le.trans ha)

theorem Evolves.mono (he : Evolves W h F h' F') (hF : F ⊆ G) (hG : ∀ a ∈ G', a ∈ F' ∨ a ∈ G) :
    Evolves W h G h' G' where
  size_le := he.size_le
  same a ha hW := he.same a ha fun hf => hW (hF hf)
  new a ha := by
    rcases hG a ha with ha | ha
    · exact (he.new a ha).imp_left (@hF a)
    · exact .inl ha

section
variable (he : Evolves W h F h' F')
include he

theorem Evolves.within (hF : F ⊆ G) : Evolves W h G h' G :=
  he.mono hF fun _ ha => .inr ha

/-- A tree in other cells is not touched. -/
theorem Evolves.rep (ht : Rep h n t G) (hd : Disjoint F G) : Rep h' n t G :=
  ht.congr fun a ha => he.same a (ht.lt ha) fun hf => (Finset.disjoint_left.mp hd hf ha).elim

theorem Evolves.disjoint (ht : Rep h n t G) (hd : Disjoint F G) : Disjoint F' G := by
  apply Finset.disjoint_left.mpr
  intro a ha hG
  rcases he.new a ha with hF | hge
  · exact Finset.disjoint_left.mp hd hF hG
  · exact absurd (ht.lt hG) (not_lt.mpr hge)

theorem Evolves.not_mem {a : ℕ} {c : MemNode} (hc : h.read a = some c) (ha : a ∉ F) : a ∉ F' := by
  intro ha'
  rcases he.new a ha' with hF | hge
  · exact ha hF
  · exact absurd (CellHeap.read_lt hc) (not_lt.mpr hge)

end

theorem Evolves.read (he : Evolves W h F h' F') {a : ℕ} {c : MemNode} (hc : h.read a = some c)
    (ha : a ∉ F) : h'.read a = some c :=
  (he.same a (CellHeap.read_lt hc) fun hF => absurd hF ha).trans hc

theorem Guard.mono (hg : Guard W w h F) (hG : G ⊆ F) : Guard W w h G :=
  ⟨hg.fresh,fun a ha => hg.old a (hG ha)⟩

theorem Guard.step (hg : Guard W w h G) (he : Evolves W h F h' F')
    (hG : ∀ a ∈ G', a ∈ G ∨ h.size ≤ a) : Guard W w h' G' where
  fresh a ha := hg.fresh a (he.size_le.trans ha)
  old a ha hW := by
    rcases hG a ha with ha | ha
    · obtain ⟨c,hc,hv⟩ := hg.old a ha hW
      exact ⟨c,by rw [he.same a (CellHeap.read_lt hc) fun _ => hW,hc],hv⟩
    · exact absurd (hg.fresh a ha) hW

theorem Guard.owned {a : ℕ} {c : MemNode} (hg : Guard W w h (Node.mem a).self)
    (hc : h.read a = some c) (hw : ¬ c.version ≤ w) : a ∈ W := by
  by_contra hW
  obtain ⟨c',hc',hv'⟩ := hg.old a (by simp) hW
  obtain rfl := some.inj (hc.symm.trans hc')
  exact hw hv'

theorem evolves_write {a : ℕ} (d : MemNode) (ha : a ∈ W) :
    Evolves W h {a} (h.write a d) {a} where
  size_le := by simp
  same b _ hb := CellHeap.read_write_ne d fun hba => hb (by simp [hba]) (hba ▸ ha)
  new b hb := .inl hb

theorem Guard.write {a : ℕ} (hg : Guard W w h F) (ha : a ∈ W) (d : MemNode) :
    Guard W w (h.write a d) F :=
  hg.step (evolves_write d ha) fun _ hx => .inl hx

theorem evolves_push (c : MemNode) : Evolves W h F (h.push c) {h.size} where
  size_le := by simp
  same b hb _ := CellHeap.read_push c hb
  new b hb := .inr (Finset.mem_singleton.mp hb).ge

end

section
variable {W : Set ℕ} {v w : Version} {h : Heap} {n l r : Node} {height size : ℕ}
  {key value : Bytes} {s : Stamp}

/-- The cell that `Mutate` returns: in `W`, and either the node's own or a new one. -/
structure Mutated (W : Set ℕ) (h : Heap) (n : Node) (a : ℕ) (h' : Heap) : Prop where
  owned : a ∈ W
  place : a ∈ n.self ∨ a = h.size
  evolves : Evolves W h n.self h' {a}

theorem Mutated.not_mem {a : ℕ} {h' : Heap} {m : Node} {u : Mixed} {G : Finset ℕ}
    (hm : Mutated W h n a h') (hu : Rep h m u G) (hd : Disjoint n.self G) : a ∉ G := by
  intro ha
  rcases hm.place with hself | rfl
  · exact Finset.disjoint_left.mp hd hself ha
  · exact absurd (hu.lt ha) (lt_irrefl _)

theorem Mutated.ne {a b : ℕ} {c : MemNode} {h' : Heap} (hm : Mutated W h n b h')
    (hc : h.read a = some c) (ha : a ∉ n.self) : a ≠ b := by
  rintro rfl
  rcases hm.place with hself | hsize
  · exact ha hself
  · exact absurd (CellHeap.read_lt hc) hsize.ge.not_gt

theorem mutate_leaf (hn : n.IsLeaf h key value s) (hg : Guard W w h n.self) :
    Wp (n.mutate v w) h fun a h' => Mutated W h n a h' ∧ ∃ l r,
      h'.read a = some ⟨0,1,v,key,some value,l,r,none⟩ := by
  cases n with
  | mem a =>
    obtain ⟨c,hc,h0,h1,rfl,hv,rfl⟩ := hn
    refine wp_bind_of (load_of hc) ?_
    by_cases hcow : c.version ≤ w
    · rw [if_pos hcow]
      refine ⟨_,_,rfl,⟨hg.fresh _ le_rfl,.inr rfl,evolves_push _⟩,c.left,c.right,?_⟩
      simp [h0,h1,hv]
    · rw [if_neg hcow]
      have ha := hg.owned hc hcow
      refine wp_bind_of (modify_of _ hc) ?_
      rw [wp_pure]
      refine ⟨⟨ha,.inl (by simp),evolves_write _ ha⟩,c.left,c.right,?_⟩
      simp [CellHeap.read_write_self _ hc,h0,h1,hv]
  | persisted p =>
    obtain ⟨hp,hkv,-⟩ := hn
    simp only [Node.mutate,hp,hkv,if_true]
    exact wp_bind_of (lift_some _ _) ⟨_,_,rfl,⟨hg.fresh _ le_rfl,.inr rfl,evolves_push _⟩,none,none,
      by simp⟩

theorem mutate_branch (hn : n.IsBranch h height size key s l r) (hg : Guard W w h n.self) :
    Wp (n.mutate v w) h fun a h' => Mutated W h n a h' ∧
      n.left h' = some (l,h') ∧ n.right h' = some (r,h') ∧ ∃ value,
      h'.read a = some ⟨height,size,v,key,value,some l,some r,none⟩ := by
  cases n with
  | mem a =>
    have hn' := hn
    obtain ⟨c,hc,hh,h0,hs,hk,hl,hr,rfl⟩ := hn
    refine wp_bind_of (load_of hc) ?_
    by_cases hcow : c.version ≤ w
    · rw [if_pos hcow]
      have he : Evolves W h (Node.mem a).self (h.push { c with version := v, hash := none })
          {h.size} := evolves_push _
      have hn'' : (Node.mem a).IsBranch (h.push { c with version := v, hash := none }) height size
        key _ l r := hn'.congr fun b hb => CellHeap.read_push _ (hn'.self_lt hb)
      exact ⟨_,_,rfl,⟨hg.fresh _ le_rfl,.inr rfl,he⟩,hn''.left_run,hn''.right_run,c.value,
        by simp [hh,hs,hk,hl,hr]⟩
    · rw [if_neg hcow]
      have ha := hg.owned hc hcow
      refine wp_bind_of (modify_of _ hc) ?_
      rw [wp_pure]
      have hread := CellHeap.read_write_self { c with version := v, hash := none } hc
      have hn'' : (Node.mem a).IsBranch (h.write a { c with version := v, hash := none }) height
        size key ⟨v,none⟩ l r := ⟨_,hread,hh,h0,hs,hk,hl,hr,rfl⟩
      exact ⟨⟨ha,.inl (by simp),evolves_write _ ha⟩,hn''.left_run,hn''.right_run,c.value,
        hread.trans (by simp [hh,hs,hk,hl,hr])⟩
  | persisted p =>
    obtain ⟨hp,hh,hs,hk,⟨pl,pr,hl,hr,rfl,rfl⟩,-⟩ := hn
    obtain ⟨x,hx,rfl⟩ := map_eq_some_iff.mp hh
    simp only [Node.mutate,hp,hx,hs,hk,hl,hr,if_false,Bool.false_eq_true]
    refine wp_bind_of (lift_some _ _) (wp_bind_of (lift_some _ _) (wp_bind_of (lift_some _ _)
      (wp_bind_of (lift_some _ _) (wp_bind_of (lift_some _ _) ?_))))
    refine ⟨_,_,rfl,⟨hg.fresh _ le_rfl,.inr rfl,evolves_push _⟩,?_,?_,none,by simp⟩
    · simp [Node.left,run_bind,hp,hl]
    · simp [Node.right,run_bind,hp,hr]

end

/-- The cell `a` holds a branch made by this update, above two trees in other cells. -/
structure Opened (W : Set ℕ) (v : Version) (h : Heap) (a height size : ℕ) (key : Bytes)
    (l r : Node) (left right : Mixed) (Fl Fr : Finset ℕ) : Prop where
  cell : ∃ value, h.read a = some ⟨height,size,v,key,value,some l,some r,none⟩
  owned : a ∈ W
  left : Rep h l left Fl
  right : Rep h r right Fr
  disjoint : Disjoint Fl Fr
  notLeft : a ∉ Fl
  notRight : a ∉ Fr

section
variable {W : Set ℕ} {v w : Version} {h h' : Heap} {a height size : ℕ} {key : Bytes}
  {l r l' r' : Node} {left right left' right' : Mixed} {Fl Fr Fl' Fr' : Finset ℕ}

section
variable (ho : Opened W v h a height size key l r left right Fl Fr)
include ho

theorem Opened.left_run : (Node.mem a).left h = some (l,h) := by
  obtain ⟨value,hc⟩ := ho.cell
  simp [Node.left,run_bind,load_of hc]

theorem Opened.right_run : (Node.mem a).right h = some (r,h) := by
  obtain ⟨value,hc⟩ := ho.cell
  simp [Node.right,run_bind,load_of hc]

theorem Opened.rep (h0 : height ≠ 0) :
    Rep h (.mem a) (.branch height size key ⟨v,none⟩ left right) ({a} ∪ (Fl ∪ Fr)) := by
  obtain ⟨value,hc⟩ := ho.cell
  refine ⟨l,r,Fl,Fr,⟨_,hc,rfl,h0,rfl,rfl,rfl,rfl,rfl⟩,ho.left,ho.right,ho.disjoint,?_,?_,rfl⟩
  · simp [ho.notLeft,ho.notRight]
  · intro c hc' x hx
    obtain rfl := some.inj (hc.symm.trans hc')
    simp at hx

end

theorem opened_write {c : MemNode} (hc : h.read a = some c) (ha : a ∈ W) (height size : ℕ)
    (key : Bytes) (value : Option Bytes) (hl : Rep h l left Fl) (hr : Rep h r right Fr)
    (hd : Disjoint Fl Fr) (hal : a ∉ Fl) (har : a ∉ Fr) :
    Opened W v (h.write a ⟨height,size,v,key,value,some l,some r,none⟩) a height size key
      l r left right Fl Fr := by
  refine ⟨⟨value,CellHeap.read_write_self _ hc⟩,ha,hl.congr ?_,hr.congr ?_,hd,hal,har⟩
  · exact fun b hb => CellHeap.read_write_ne _ fun hba => hal (hba ▸ hb)
  · exact fun b hb => CellHeap.read_write_ne _ fun hba => har (hba ▸ hb)

variable {F : Finset ℕ} {st : Stamp} {n : Node}

theorem Opened.evolve {F' : Finset ℕ} (ho : Opened W v h a height size key l r left right Fl Fr)
    (he : Evolves W h F h' F') (ha : a ∉ F) (hl : Disjoint F Fl) (hr : Disjoint F Fr) :
    Opened W v h' a height size key l r left right Fl Fr := by
  obtain ⟨value,hc⟩ := ho.cell
  have hsame := he.same a (CellHeap.read_lt hc) fun hf => absurd hf ha
  exact ⟨⟨value,hsame.trans hc⟩,ho.owned,he.rep ho.left hl,he.rep ho.right hr,ho.disjoint,
    ho.notLeft,ho.notRight⟩

theorem updateHeightSize_spec (ho : Opened W v h a height size key l r left right Fl Fr) :
    Wp (updateHeightSize a) h fun _ h' => Evolves W h {a} h' {a} ∧
      Opened W v h' a (max left.height right.height+1) (left.size+right.size) key l r
        left right Fl Fr := by
  obtain ⟨value,hc⟩ := ho.cell
  refine wp_bind_of ho.left_run (wp_bind_of ho.right_run ?_)
  refine wp_bind_of ho.left.height_run (wp_bind_of ho.right.height_run ?_)
  refine wp_bind_of (modify_of _ hc) ?_
  have ho₁ : Opened W v _ a _ size key l r left right Fl Fr := opened_write hc ho.owned
    (max left.height right.height+1) size key value ho.left ho.right ho.disjoint ho.notLeft
    ho.notRight
  obtain ⟨value',hc₁⟩ := ho₁.cell
  refine wp_bind_of ho₁.left.size_run (wp_bind_of ho₁.right.size_run ?_)
  refine ⟨_,_,modify_of _ hc₁,(evolves_write _ ho.owned).trans (evolves_write _ ho.owned),?_⟩
  exact opened_write hc₁ ho.owned _ _ _ _ ho₁.left ho₁.right ho.disjoint ho.notLeft ho.notRight

/-- The lower half of a rotation: the old root `a` gets two subtrees and new counts, while
the lifted node `b` and the third subtree stay as they are. -/
theorem relink_spec {b : ℕ} {ca cb : MemNode} (cb' : MemNode) {x y z : Node} {X Y Z : Mixed}
    {Fx Fy Fz : Finset ℕ} (hca : h.read a = some ca) (hcb : h.read b = some cb) (ha : a ∈ W)
    (hb : b ∈ W) (hab : a ≠ b) (height size : ℕ) (key : Bytes) (value : Option Bytes)
    (hx : Rep h x X Fx) (hy : Rep h y Y Fy) (hz : Rep h z Z Fz) (hd : Disjoint Fx Fy)
    (hax : a ∉ Fx) (hay : a ∉ Fy) (haz : a ∉ Fz) (hbx : b ∉ Fx) (hby : b ∉ Fy) (hbz : b ∉ Fz) :
    Wp (updateHeightSize a)
      ((h.write a ⟨height,size,v,key,value,some x,some y,none⟩).write b cb') fun _ h' =>
      Rep h' (.mem a) (.mk key ⟨v,none⟩ X Y) ({a} ∪ (Fx ∪ Fy)) ∧ h'.read b = some cb' ∧
      Rep h' z Z Fz ∧ Evolves W h ({a} ∪ {b}) h' ({a} ∪ {b}) := by
  have he₁ : Evolves W h {a} _ {a} :=
    evolves_write ⟨height,size,v,key,value,some x,some y,none⟩ ha
  have ho₁ : Opened W v _ a height size key x y X Y Fx Fy :=
    opened_write hca ha height size key value hx hy hd hax hay
  have hcb₁ := (CellHeap.read_write_ne ⟨height,size,v,key,value,some x,some y,none⟩
    hab.symm).trans hcb
  generalize h.write a ⟨height,size,v,key,value,some x,some y,none⟩ = h₁ at *
  have he₂ : Evolves W h₁ {b} _ {b} := evolves_write cb' hb
  have ho₂ := ho₁.evolve he₂ (by simpa using hab) (by simpa using hbx) (by simpa using hby)
  have hcb₂ := CellHeap.read_write_self cb' hcb₁
  generalize h₁.write b cb' = h₂ at *
  refine (updateHeightSize_spec ho₂).mono ?_
  rintro - h₃ ⟨he₃,ho₃⟩
  refine ⟨ho₃.rep (by omega),?_,?_,?_⟩
  · exact (he₃.same b (CellHeap.read_lt hcb₂)
      fun hba => absurd (Finset.mem_singleton.mp hba) hab.symm).trans hcb₂
  · exact he₃.rep (he₂.rep (he₁.rep hz (by simpa using haz)) (by simpa using hbz))
      (by simpa using haz)
  · exact (he₁.within Finset.subset_union_left).trans ((he₂.within Finset.subset_union_right).trans
      (he₃.within Finset.subset_union_left))

theorem rotateRight_spec {lh ls : ℕ} {lk : Bytes} {ll lr : Mixed}
    (ho : Opened W v h a height size key l r (.branch lh ls lk st ll lr) right Fl Fr)
    (hg : Guard W w h Fl) :
    Wp (rotateRight a v w) h fun a' h' => ∃ F',
      Rep h' (.mem a') (.mk lk ⟨v,none⟩ ll (.mk key ⟨v,none⟩ lr right)) F' ∧
      Evolves W h ({a} ∪ (Fl ∪ Fr)) h' F' := by
  obtain ⟨nll,nlr,Fll,Flr,hn,hll,hlr,hd,hself,-,rfl⟩ := ho.left
  obtain ⟨value,hc⟩ := ho.cell
  have hr := ho.right
  have hnotLeft := ho.notLeft
  have hdisj := ho.disjoint
  simp only [Finset.mem_union,not_or] at hnotLeft
  simp only [Finset.disjoint_union_left] at hdisj
  simp only [Finset.disjoint_union_right] at hself
  refine wp_bind_of ho.left_run ?_
  refine (mutate_branch hn (hg.mono Finset.subset_union_left)).bind ?_
  rintro b h₁ ⟨hm,-,hright,lvalue,hb⟩
  -- The lifted node is in a cell of its own, apart from all subtrees.
  have hbll := hm.not_mem hll hself.1
  have hblr := hm.not_mem hlr hself.2
  have hbr := hm.not_mem hr hdisj.1
  have hab := hm.ne hc hnotLeft.1
  have hc₁ := (hm.evolves.same a (CellHeap.read_lt hc) fun ha => absurd ha hnotLeft.1).trans hc
  refine wp_bind_of hright (wp_bind_of (modify_of _ hc₁) ?_)
  refine wp_bind_of (modify_of _ ((CellHeap.read_write_ne _ hab.symm).trans hb)) ?_
  refine (relink_spec _ hc₁ hb ho.owned hm.owned hab height size key value
    (hm.evolves.rep hlr hself.2) (hm.evolves.rep hr hdisj.1) (hm.evolves.rep hll hself.1)
    hdisj.2.2 hnotLeft.2.2 ho.notRight hnotLeft.2.1 hblr hbr hbll).bind ?_
  rintro - h₂ ⟨hlow,hb₂,hrepll,he₂⟩
  have ho₂ : Opened W v h₂ b lh ls lk nll (.mem a) ll (.mk key ⟨v,none⟩ lr right) Fll
      ({a} ∪ (Flr ∪ Fr)) :=
    ⟨⟨lvalue,hb₂⟩,hm.owned,hrepll,hlow,by simp [hnotLeft.2.1,hd,hdisj.2.1],hbll,
      by simp [hab.symm,hblr,hbr]⟩
  refine (updateHeightSize_spec ho₂).bind ?_
  rintro - h₃ ⟨he₃,ho₃⟩
  rw [wp_pure]
  refine ⟨_,ho₃.rep (by omega),?_⟩
  have he₁ : Evolves W h ({a} ∪ (l.self ∪ (Fll ∪ Flr) ∪ Fr)) h₁
      ({b} ∪ ({a} ∪ (l.self ∪ (Fll ∪ Flr) ∪ Fr))) :=
    hm.evolves.mono (by intro x hx; simp [hx]) fun x hx => Finset.mem_union.mp hx
  refine he₁.trans ((he₂.within ?_).trans ((he₃.within ?_).trans (Evolves.refl ?_)))
  all_goals
    intro x hx
    simp only [Finset.mem_union] at hx ⊢
    tauto

theorem rotateLeft_spec {rh rs : ℕ} {rk : Bytes} {rl rr : Mixed}
    (ho : Opened W v h a height size key l r left (.branch rh rs rk st rl rr) Fl Fr)
    (hg : Guard W w h Fr) :
    Wp (rotateLeft a v w) h fun a' h' => ∃ F',
      Rep h' (.mem a') (.mk rk ⟨v,none⟩ (.mk key ⟨v,none⟩ left rl) rr) F' ∧
      Evolves W h ({a} ∪ (Fl ∪ Fr)) h' F' := by
  obtain ⟨nrl,nrr,Frl,Frr,hn,hrl,hrr,hd,hself,-,rfl⟩ := ho.right
  obtain ⟨value,hc⟩ := ho.cell
  have hl := ho.left
  have hnotRight := ho.notRight
  have hdisj := ho.disjoint
  simp only [Finset.mem_union,not_or] at hnotRight
  simp only [Finset.disjoint_union_right] at hdisj hself
  refine wp_bind_of ho.right_run ?_
  refine (mutate_branch hn (hg.mono Finset.subset_union_left)).bind ?_
  rintro b h₁ ⟨hm,hleft,-,rvalue,hb⟩
  have hbrl := hm.not_mem hrl hself.1
  have hbrr := hm.not_mem hrr hself.2
  have hbl := hm.not_mem hl hdisj.1.symm
  have hab := hm.ne hc hnotRight.1
  have hc₁ := (hm.evolves.same a (CellHeap.read_lt hc) fun ha => absurd ha hnotRight.1).trans hc
  refine wp_bind_of hleft (wp_bind_of (modify_of _ hc₁) ?_)
  refine wp_bind_of (modify_of _ ((CellHeap.read_write_ne _ hab.symm).trans hb)) ?_
  refine (relink_spec _ hc₁ hb ho.owned hm.owned hab height size key value
    (hm.evolves.rep hl hdisj.1.symm) (hm.evolves.rep hrl hself.1) (hm.evolves.rep hrr hself.2)
    hdisj.2.1 ho.notLeft hnotRight.2.1 hnotRight.2.2 hbl hbrl hbrr).bind ?_
  rintro - h₂ ⟨hlow,hb₂,hreprr,he₂⟩
  have ho₂ : Opened W v h₂ b rh rs rk (.mem a) nrr (.mk key ⟨v,none⟩ left rl) rr
      ({a} ∪ (Fl ∪ Frl)) Frr :=
    ⟨⟨rvalue,hb₂⟩,hm.owned,hlow,hreprr,by simp [hnotRight.2.2,hd,hdisj.2.2],
      by simp [hab.symm,hbl,hbrl],hbrr⟩
  refine (updateHeightSize_spec ho₂).bind ?_
  rintro - h₃ ⟨he₃,ho₃⟩
  rw [wp_pure]
  refine ⟨_,ho₃.rep (by omega),?_⟩
  have he₁ : Evolves W h ({a} ∪ (Fl ∪ (r.self ∪ (Frl ∪ Frr)))) h₁
      ({b} ∪ ({a} ∪ (Fl ∪ (r.self ∪ (Frl ∪ Frr))))) :=
    hm.evolves.mono (by intro x hx; simp [hx]) fun x hx => Finset.mem_union.mp hx
  refine he₁.trans ((he₂.within ?_).trans ((he₃.within ?_).trans (Evolves.refl ?_)))
  all_goals
    intro x hx
    simp only [Finset.mem_union] at hx ⊢
    tauto

theorem mutate_opened (ht : Rep h n (.branch height size key st left right) F) (hg : Guard W w h F) :
    Wp (n.mutate v w) h fun a h' => ∃ l r Fl Fr,
      Opened W v h' a height size key l r left right Fl Fr ∧
      Evolves W h F h' ({a} ∪ (Fl ∪ Fr)) := by
  obtain ⟨l,r,Fl,Fr,hn,hl,hr,hd,hself,-,rfl⟩ := ht
  rw [Finset.disjoint_union_right] at hself
  refine (mutate_branch hn (hg.mono Finset.subset_union_left)).mono ?_
  rintro a h' ⟨hm,-,-,hcell⟩
  refine ⟨l,r,Fl,Fr,⟨hcell,hm.owned,hm.evolves.rep hl hself.1,hm.evolves.rep hr hself.2,hd,
    hm.not_mem hl hself.1,hm.not_mem hr hself.2⟩,hm.evolves.mono Finset.subset_union_left ?_⟩
  intro x hx
  simp only [Finset.mem_union] at hx ⊢
  tauto

theorem calcBalance_of (hl : n.left h = some (l,h)) (hr : n.right h = some (r,h))
    (hL : Rep h l left Fl) (hR : Rep h r right Fr) :
    calcBalance n h = some ((left.height : ℤ) - right.height,h) := by
  simp only [calcBalance,run_bind,hl,hr,hL.height_run,hR.height_run,bind_some,run_pure]

theorem calcBalance_branch (ht : Rep h n (.branch height size key st left right) F) :
    calcBalance n h = some ((left.height : ℤ) - right.height,h) := by
  obtain ⟨l,r,Fl,Fr,hn,hl,hr,-⟩ := ht
  exact calcBalance_of hn.left_run hn.right_run hl hr

theorem Opened.setLeft (ho : Opened W v h a height size key l r left right Fl Fr)
    (value : Option Bytes) (he : Evolves W h Fl h' Fl') (hl : Rep h' l' left' Fl') :
    Opened W v (h'.write a ⟨height,size,v,key,value,some l',some r,none⟩) a height size key l' r
      left' right Fl' Fr := by
  obtain ⟨_,hc⟩ := ho.cell
  exact opened_write (he.read hc ho.notLeft) ho.owned height size key value hl
    (he.rep ho.right ho.disjoint) (he.disjoint ho.right ho.disjoint) (he.not_mem hc ho.notLeft)
    ho.notRight

theorem Opened.setRight (ho : Opened W v h a height size key l r left right Fl Fr)
    (value : Option Bytes) (he : Evolves W h Fr h' Fr') (hr : Rep h' r' right' Fr') :
    Opened W v (h'.write a ⟨height,size,v,key,value,some l,some r',none⟩) a height size key l r'
      left right' Fl Fr' := by
  obtain ⟨_,hc⟩ := ho.cell
  exact opened_write (he.read hc ho.notRight) ho.owned height size key value
    (he.rep ho.left ho.disjoint.symm) hr (he.disjoint ho.left ho.disjoint.symm).symm ho.notLeft
    (he.not_mem hc ho.notRight)

/-- A tree of height at least one is a branch. -/
theorem exists_branch {t : Mixed} (ht : 0 < t.height) :
    ∃ height size key st left right, t = .branch height size key st left right := by
  cases t with
  | leaf key value st => simp at ht
  | branch height size key st left right => exact ⟨_,_,_,_,_,_,rfl⟩

theorem leftRight_spec {lh ls : ℕ} {lk : Bytes} {ll lr : Mixed}
    (ho : Opened W v h a height size key l r (.branch lh ls lk st ll lr) right Fl Fr)
    (hlr : 0 < lr.height) (hg : Guard W w h Fl) :
    Wp (do
      let newLeft ← l.mutate v w
      let newLeft ← rotateLeft newLeft v w
      modify a fun n => { n with left := some (.mem newLeft) }
      rotateRight a v w) h fun a' h' => ∃ F',
      Rep h' (.mem a') (LeafTree.rotateRight ⟨v,none⟩ (.branch height size key ⟨v,none⟩
        (LeafTree.rotateLeft ⟨v,none⟩ (.branch lh ls lk ⟨v,none⟩ ll lr)) right)) F' ∧
      Evolves W h ({a} ∪ (Fl ∪ Fr)) h' F' := by
  obtain ⟨mh,ms,mk,mst,ml,mr,rfl⟩ := exists_branch hlr
  obtain ⟨value,hc⟩ := ho.cell
  refine (mutate_opened ho.left hg).bind ?_
  rintro b h₁ ⟨l₁,r₁,Fl₁,Fr₁,ho₁,he₁⟩
  refine (rotateLeft_spec ho₁ (hg.step he₁ fun x hx => he₁.new x (by simp [hx]))).bind ?_
  rintro b' h₂ ⟨F₂,hrep₂,he₂⟩
  have he := he₁.trans he₂
  refine wp_bind_of (modify_of _ (he.read hc ho.notLeft)) ?_
  have ho₃ := ho.setLeft value he hrep₂
  refine (rotateRight_spec ho₃ ((hg.step he he.new).write ho.owned _)).mono ?_
  rintro a' h₄ ⟨F',hrep',he'⟩
  refine ⟨F',hrep',?_⟩
  refine (he.mono ?_ ?_).trans (((evolves_write _ ho.owned).within ?_).trans he')
  all_goals
    intro x hx
    simp only [Finset.mem_union] at hx ⊢
    tauto

theorem rightLeft_spec {rh rs : ℕ} {rk : Bytes} {rl rr : Mixed}
    (ho : Opened W v h a height size key l r left (.branch rh rs rk st rl rr) Fl Fr)
    (hrl : 0 < rl.height) (hg : Guard W w h Fr) :
    Wp (do
      let newRight ← r.mutate v w
      let newRight ← rotateRight newRight v w
      modify a fun n => { n with right := some (.mem newRight) }
      rotateLeft a v w) h fun a' h' => ∃ F',
      Rep h' (.mem a') (LeafTree.rotateLeft ⟨v,none⟩ (.branch height size key ⟨v,none⟩ left
        (LeafTree.rotateRight ⟨v,none⟩ (.branch rh rs rk ⟨v,none⟩ rl rr)))) F' ∧
      Evolves W h ({a} ∪ (Fl ∪ Fr)) h' F' := by
  obtain ⟨mh,ms,mk,mst,ml,mr,rfl⟩ := exists_branch hrl
  obtain ⟨value,hc⟩ := ho.cell
  refine (mutate_opened ho.right hg).bind ?_
  rintro b h₁ ⟨l₁,r₁,Fl₁,Fr₁,ho₁,he₁⟩
  refine (rotateRight_spec ho₁ (hg.step he₁ fun x hx => he₁.new x (by simp [hx]))).bind ?_
  rintro b' h₂ ⟨F₂,hrep₂,he₂⟩
  have he := he₁.trans he₂
  refine wp_bind_of (modify_of _ (he.read hc ho.notRight)) ?_
  have ho₃ := ho.setRight value he hrep₂
  refine (rotateLeft_spec ho₃ ((hg.step he he.new).write ho.owned _)).mono ?_
  rintro a' h₄ ⟨F',hrep',he'⟩
  refine ⟨F',hrep',?_⟩
  refine (he.mono ?_ ?_).trans (((evolves_write _ ho.owned).within ?_).trans he')
  all_goals
    intro x hx
    simp only [Finset.mem_union] at hx ⊢
    tauto

/-- `reBalance` computes the rotations of the abstract tree. A side that is too high by two
is a branch, so that no missing child is ever followed. -/
theorem reBalance_spec (ho : Opened W v h a height size key l r left right Fl Fr)
    (h0 : height ≠ 0) (hg : Guard W w h (Fl ∪ Fr)) :
    Wp (reBalance a v w) h fun a' h' => ∃ F',
      Rep h' (.mem a')
        (LeafTree.reBalance ⟨v,none⟩ (.branch height size key ⟨v,none⟩ left right)) F' ∧
      Evolves W h ({a} ∪ (Fl ∪ Fr)) h' F' := by
  refine wp_bind_of (calcBalance_of ho.left_run ho.right_run ho.left ho.right) ?_
  by_cases hhigh : 1 < (left.height : ℤ) - right.height
  · obtain ⟨lh,ls,lk,st,ll,lr,rfl⟩ := exists_branch (t := left) (by omega)
    rw [if_pos hhigh]
    refine wp_bind_of ho.left_run (wp_bind_of (calcBalance_branch ho.left) ?_)
    rw [LeafTree.reBalance,if_pos hhigh,← LeafTree.balance_branch lh ls lk st]
    by_cases hb : 0 ≤ (LeafTree.branch lh ls lk st ll lr).balance
    · rw [if_pos hb,if_pos hb]
      exact rotateRight_spec ho (hg.mono Finset.subset_union_left)
    · rw [if_neg hb,if_neg hb]
      rw [LeafTree.balance_branch] at hb
      exact leftRight_spec ho (by omega) (hg.mono Finset.subset_union_left)
  rw [if_neg hhigh]
  by_cases hlow : (left.height : ℤ) - right.height < -1
  · obtain ⟨rh,rs,rk,st,rl,rr,rfl⟩ := exists_branch (t := right) (by omega)
    rw [if_pos hlow]
    refine wp_bind_of ho.right_run (wp_bind_of (calcBalance_branch ho.right) ?_)
    rw [LeafTree.reBalance,if_neg hhigh,if_pos hlow,← LeafTree.balance_branch rh rs rk st]
    by_cases hb : (LeafTree.branch rh rs rk st rl rr).balance ≤ 0
    · rw [if_pos hb,if_pos hb]
      exact rotateLeft_spec ho (hg.mono Finset.subset_union_right)
    · rw [if_neg hb,if_neg hb]
      rw [LeafTree.balance_branch] at hb
      exact rightLeft_spec ho (by omega) (hg.mono Finset.subset_union_right)
  · rw [if_neg hlow,wp_pure,LeafTree.reBalance,if_neg hhigh,if_neg hlow]
    exact ⟨_,ho.rep h0,Evolves.refl subset_rfl⟩

end

section
variable {W : Set ℕ} {v w : Version} {h h₁ : Heap} {n l r l' r' : Node} {height size : ℕ}
  {key : Bytes} {st : Stamp} {left right left' right' : Mixed} {Fl Fr Fl' Fr' : Finset ℕ}

theorem mutate_setLeft (hn : n.IsBranch h height size key st l r) (hr : Rep h r right Fr)
    (hself : Disjoint n.self Fl) (hself' : Disjoint n.self Fr) (hd : Disjoint Fl Fr)
    (hg : Guard W w h n.self) (he : Evolves W h Fl h₁ Fl') (hl : Rep h₁ l' left' Fl') :
    Wp (n.mutate v w) h₁ fun a h₂ => ∃ h₃,
      (modify a fun n => { n with left := some l' } : HeapM MemNode Unit) h₂ = some ((),h₃) ∧
      Opened W v h₃ a height size key l' r left' right Fl' Fr ∧
      Evolves W h (n.self ∪ (Fl ∪ Fr)) h₃ ({a} ∪ (Fl' ∪ Fr)) := by
  have hn₁ := hn.congr fun a ha => he.same a (hn.self_lt ha) fun hF =>
    absurd hF (Finset.disjoint_left.mp hself ha)
  have hself₁ : Disjoint n.self Fl' := Finset.disjoint_left.mpr fun a ha hF => by
    rcases he.new a hF with hF | hge
    · exact Finset.disjoint_left.mp hself ha hF
    · exact absurd (hn.self_lt ha) (not_lt.mpr hge)
  have hr₁ := he.rep hr hd
  refine (mutate_branch hn₁ (hg.step he fun a ha => .inl ha)).mono ?_
  rintro a h₂ ⟨hm,-,-,value,hc⟩
  refine ⟨_,modify_of _ hc,opened_write hc hm.owned height size key value
    (hm.evolves.rep hl hself₁) (hm.evolves.rep hr₁ hself') (he.disjoint hr hd)
    (hm.not_mem hl hself₁) (hm.not_mem hr₁ hself'),?_⟩
  have he₁ : Evolves W h (n.self ∪ (Fl ∪ Fr)) h₁ (n.self ∪ (Fl' ∪ Fr)) := by
    refine he.mono ?_ ?_ <;>
    · intro x hx
      simp only [Finset.mem_union] at hx ⊢
      tauto
  have he₂ : Evolves W h₁ (n.self ∪ (Fl' ∪ Fr)) h₂ ({a} ∪ (Fl' ∪ Fr)) := by
    refine hm.evolves.mono Finset.subset_union_left ?_
    intro x hx
    simp only [Finset.mem_union] at hx ⊢
    tauto
  exact he₁.trans (he₂.trans ((evolves_write _ hm.owned).within Finset.subset_union_left))

theorem mutate_setRight (newKey : Option Bytes) (hn : n.IsBranch h height size key st l r)
    (hl : Rep h l left Fl) (hself : Disjoint n.self Fl) (hself' : Disjoint n.self Fr)
    (hd : Disjoint Fl Fr) (hg : Guard W w h n.self) (he : Evolves W h Fr h₁ Fr')
    (hr : Rep h₁ r' right' Fr') :
    Wp (n.mutate v w) h₁ fun a h₂ => ∃ h₃,
      (modify a fun n => { n with right := some r', key := newKey.getD n.key } :
        HeapM MemNode Unit) h₂ = some ((),h₃) ∧
      Opened W v h₃ a height size (newKey.getD key) l r' left right' Fl Fr' ∧
      Evolves W h (n.self ∪ (Fl ∪ Fr)) h₃ ({a} ∪ (Fl ∪ Fr')) := by
  have hn₁ := hn.congr fun a ha => he.same a (hn.self_lt ha) fun hF =>
    absurd hF (Finset.disjoint_left.mp hself' ha)
  have hself₁ : Disjoint n.self Fr' := Finset.disjoint_left.mpr fun a ha hF => by
    rcases he.new a hF with hF | hge
    · exact Finset.disjoint_left.mp hself' ha hF
    · exact absurd (hn.self_lt ha) (not_lt.mpr hge)
  have hl₁ := he.rep hl hd.symm
  refine (mutate_branch hn₁ (hg.step he fun a ha => .inl ha)).mono ?_
  rintro a h₂ ⟨hm,-,-,value,hc⟩
  refine ⟨_,modify_of _ hc,opened_write hc hm.owned height size _ value
    (hm.evolves.rep hl₁ hself) (hm.evolves.rep hr hself₁) (he.disjoint hl hd.symm).symm
    (hm.not_mem hl₁ hself) (hm.not_mem hr hself₁),?_⟩
  have he₁ : Evolves W h (n.self ∪ (Fl ∪ Fr)) h₁ (n.self ∪ (Fl ∪ Fr')) := by
    refine he.mono ?_ ?_ <;>
    · intro x hx
      simp only [Finset.mem_union] at hx ⊢
      tauto
  have he₂ : Evolves W h₁ (n.self ∪ (Fl ∪ Fr')) h₂ ({a} ∪ (Fl ∪ Fr')) := by
    refine hm.evolves.mono Finset.subset_union_left ?_
    intro x hx
    simp only [Finset.mem_union] at hx ⊢
    tauto
  exact he₁.trans (he₂.trans ((evolves_write _ hm.owned).within Finset.subset_union_left))

/-- The last part of an update of a branch: new counts, then rotations. -/
theorem update_reBalance {a : ℕ} {F : Finset ℕ} {β : Type} {f : ℕ → HeapM MemNode β}
    {Q : β → Heap → Prop} (ho : Opened W v h₁ a height size key l r left right Fl Fr)
    (he : Evolves W h F h₁ ({a} ∪ (Fl ∪ Fr))) (hg : Guard W w h F)
    (hf : ∀ a' h' F',
      Rep h' (.mem a') (LeafTree.reBalance ⟨v,none⟩ (.mk key ⟨v,none⟩ left right)) F' →
      Evolves W h F h' F' → Wp (f a') h' Q) :
    Wp (do
      updateHeightSize a
      let a' ← reBalance a v w
      f a') h₁ Q := by
  refine (updateHeightSize_spec ho).bind ?_
  rintro - h₂ ⟨he₂,ho₂⟩
  have he' := he.trans (he₂.within Finset.subset_union_left)
  refine (reBalance_spec ho₂ (by omega) (hg.step he' fun x hx => he'.new x (by simp_all))).bind ?_
  rintro a' h₃ ⟨F',hrep,he₃⟩
  exact hf a' h₃ F' hrep (he'.trans he₃)

theorem rep_newLeaf (h : Heap) (key value : Bytes) (v : Version) :
    Rep (h.push (newLeafNode key value v)) (.mem h.size) (.leaf key value ⟨v,none⟩) {h.size} := by
  refine ⟨⟨_,CellHeap.read_push_self ..,rfl,rfl,rfl,rfl,rfl⟩,?_,rfl⟩
  intro c hc x hx
  obtain rfl := some.inj ((CellHeap.read_push_self ..).symm.trans hc)
  simp [newLeafNode] at hx

theorem rep_newBranch (height size : ℕ) (key : Bytes) (h0 : height ≠ 0) (hl : Rep h l left Fl)
    (hr : Rep h r right Fr) (hd : Disjoint Fl Fr) :
    Rep (h.push ⟨height,size,v,key,none,some l,some r,none⟩) (.mem h.size)
      (.branch height size key ⟨v,none⟩ left right) ({h.size} ∪ (Fl ∪ Fr)) := by
  have he : Evolves ∅ h ∅ (h.push ⟨height,size,v,key,none,some l,some r,none⟩) {h.size} :=
    evolves_push _
  refine ⟨l,r,Fl,Fr,⟨_,CellHeap.read_push_self ..,rfl,h0,rfl,rfl,rfl,rfl,rfl⟩,
    he.rep hl (by simp),he.rep hr (by simp),hd,?_,?_,rfl⟩
  · simp only [Node.self_mem,Finset.disjoint_singleton_left,Finset.mem_union,not_or]
    exact ⟨fun hx => lt_irrefl _ (hl.lt hx),fun hx => lt_irrefl _ (hr.lt hx)⟩
  · intro c hc x hx
    obtain rfl := some.inj ((CellHeap.read_push_self ..).symm.trans hc)
    simp at hx

theorem evolves_push_branch (c : MemNode) (F : Finset ℕ) :
    Evolves W h F (h.push c) ({h.size} ∪ F) :=
  (evolves_push c).mono subset_rfl fun _ hx => Finset.mem_union.mp hx

theorem setRecursive_leaf {old : Bytes} {fuel : ℕ} (newKey value : Bytes)
    (hn : Rep h n (.leaf key old st) Fl) (hg : Guard W w h Fl) :
    Wp (setRecursive newKey value v w (fuel+1) (some n)) h fun p h' =>
      p.2 = ((LeafTree.leaf key old st).insert newKey value ⟨v,none⟩).2 ∧ ∃ F',
      Rep h' (.mem p.1) ((LeafTree.leaf key old st).insert newKey value ⟨v,none⟩).1 F' ∧
      Evolves W h Fl h' F' := by
  have hfields := hn.1
  refine wp_bind_of hfields.key_run (wp_bind_of hfields.isLeaf_run ?_)
  simp only [if_true,LeafTree.insert]
  have he : Evolves ∅ h ∅ (h.push (newLeafNode newKey value v)) {h.size} := evolves_push _
  have hd : Disjoint {h.size} Fl := by
    rw [Finset.disjoint_singleton_left]
    exact fun hx => lt_irrefl _ (hn.lt hx)
  by_cases hlt : newKey < key
  · rw [if_pos hlt,if_pos hlt]
    refine wp_bind_of rfl (wp_bind_of rfl ?_)
    rw [wp_pure]
    exact ⟨rfl,_,rep_newBranch 1 2 key (by omega) (rep_newLeaf ..) (he.rep hn (by simp)) hd,
      (evolves_push_branch ..).trans (evolves_push_branch ..)⟩
  rw [if_neg hlt,if_neg hlt]
  by_cases hgt : key < newKey
  · rw [if_pos hgt,if_pos hgt]
    refine wp_bind_of rfl (wp_bind_of rfl ?_)
    rw [wp_pure]
    refine ⟨rfl,_,rep_newBranch 1 2 newKey (by omega) (he.rep hn (by simp)) (rep_newLeaf ..)
      hd.symm,?_⟩
    rw [Finset.union_comm Fl]
    exact (evolves_push_branch ..).trans (evolves_push_branch ..)
  · rw [if_neg hgt,if_neg hgt]
    refine (mutate_leaf hfields (hg.mono hn.self_subset)).bind ?_
    rintro a h' ⟨hm,l,r,hc⟩
    refine wp_bind_of (modify_of _ hc) ?_
    have hread := CellHeap.read_write_self ⟨0,1,v,key,some value,l,r,none⟩ hc
    rw [wp_pure]
    refine ⟨rfl,{a},⟨⟨_,hread,rfl,rfl,rfl,rfl,rfl⟩,?_,rfl⟩,?_⟩
    · intro c hc' x hx
      obtain rfl := some.inj (hread.symm.trans hc')
      simp at hx
    · exact (hm.evolves.trans (evolves_write _ hm.owned)).mono hn.self_subset
        fun x hx => .inl hx

/-- `setRecursive` inserts into the abstract tree. -/
theorem setRecursive_spec {t : Mixed} {F : Finset ℕ} {fuel : ℕ} (newKey value : Bytes)
    (ht : Rep h n t F) (hbal : t.Balanced) (hf : t.height < fuel) (hg : Guard W w h F) :
    Wp (setRecursive newKey value v w fuel (some n)) h fun p h' =>
      p.2 = (t.insert newKey value ⟨v,none⟩).2 ∧ ∃ F',
      Rep h' (.mem p.1) (t.insert newKey value ⟨v,none⟩).1 F' ∧ Evolves W h F h' F' := by
  induction t generalizing n F h fuel with
  | leaf key old st =>
    obtain _ | fuel := fuel
    · omega
    exact setRecursive_leaf newKey value ht hg
  | branch height size key st left right ihl ihr =>
    obtain _ | fuel := fuel
    · omega
    obtain ⟨l,r,Fl,Fr,hn,hl,hr,hd,hself,-,rfl⟩ := ht
    obtain ⟨hbl,hbr,hheight,-⟩ := hbal
    have h0 : height ≠ 0 := by omega
    simp only [LeafTree.height_branch] at hf
    rw [Finset.disjoint_union_right] at hself
    have hgself : Guard W w h n.self := hg.mono Finset.subset_union_left
    refine wp_bind_of hn.key_run (wp_bind_of hn.isLeaf_run ?_)
    simp only [Bool.false_eq_true,if_false,LeafTree.insert]
    by_cases hlt : newKey < key
    · rw [if_pos hlt,if_pos hlt]
      refine wp_bind_of hn.left_run ?_
      have hgl : Guard W w h Fl := hg.mono fun x hx => by simp [hx]
      refine (@ihl _ _ _ fuel hl hbl (by omega) hgl).bind ?_
      rintro ⟨c,updated⟩ h₁ ⟨hu,Fl',hrep,he⟩
      refine (mutate_setLeft hn hr hself.1 hself.2 hd hgself he hrep).bind ?_
      rintro a h₂ ⟨h₃,hmod,ho,he₃⟩
      refine wp_bind_of hmod ?_
      simp only at hu
      rw [← hu]
      cases updated with
      | true => exact (wp_pure ..).mpr ⟨rfl,_,ho.rep h0,he₃⟩
      | false =>
        refine update_reBalance ho he₃ hg ?_
        exact fun a' h' F' hrep' he' => (wp_pure ..).mpr ⟨rfl,F',hrep',he'⟩
    · rw [if_neg hlt,if_neg hlt]
      refine wp_bind_of hn.right_run ?_
      have hgr : Guard W w h Fr := hg.mono fun x hx => by simp [hx]
      refine (@ihr _ _ _ fuel hr hbr (by omega) hgr).bind ?_
      rintro ⟨c,updated⟩ h₁ ⟨hu,Fr',hrep,he⟩
      refine (mutate_setRight none hn hl hself.1 hself.2 hd hgself he hrep).bind ?_
      rintro a h₂ ⟨h₃,hmod,ho,he₃⟩
      refine wp_bind_of hmod ?_
      simp only at hu
      rw [← hu]
      cases updated with
      | true => exact (wp_pure ..).mpr ⟨rfl,_,ho.rep h0,he₃⟩
      | false =>
        refine update_reBalance ho he₃ hg ?_
        exact fun a' h' F' hrep' he' => (wp_pure ..).mpr ⟨rfl,F',hrep',he'⟩

/-- What `removeRecursive` returns for each outcome of the abstract removal. -/
def RemovePost (W : Set ℕ) (h : Heap) (n : Node) (F : Finset ℕ) :
    LeafTree.Erased Bytes Bytes Stamp → Option Bytes × Option Node × Option Bytes → Heap → Prop
  | .missing, p, h' => p = (none,some n,none) ∧ h' = h
  | .gone value, p, h' => p = (some value,none,none) ∧ h' = h
  | .found value t newKey, p, h' => ∃ n' F', p = (some value,some n',newKey) ∧ Rep h' n' t F' ∧
      Evolves W h F h' F'

/-- `removeRecursive` removes from the abstract tree. -/
theorem removeRecursive_spec {t : Mixed} {F : Finset ℕ} {fuel : ℕ} (oldKey : Bytes)
    (ht : Rep h n t F) (hbal : t.Balanced) (hf : t.height < fuel) (hg : Guard W w h F) :
    Wp (removeRecursive oldKey v w fuel (some n)) h
      (RemovePost W h n F (t.erase oldKey ⟨v,none⟩)) := by
  induction t generalizing n F h fuel with
  | leaf key value st =>
    obtain _ | fuel := fuel
    · omega
    obtain ⟨hn,-,rfl⟩ := ht
    refine wp_bind_of hn.key_run (wp_bind_of hn.isLeaf_run ?_)
    simp only [if_true,LeafTree.erase]
    by_cases hk : key = oldKey
    · rw [if_pos hk,if_pos hk]
      exact wp_bind_of hn.value_run ((wp_pure ..).mpr ⟨rfl,rfl⟩)
    · rw [if_neg hk,if_neg hk]
      exact (wp_pure ..).mpr ⟨rfl,rfl⟩
  | branch height size key st left right ihl ihr =>
    obtain _ | fuel := fuel
    · omega
    obtain ⟨l,r,Fl,Fr,hn,hl,hr,hd,hself,-,rfl⟩ := ht
    obtain ⟨hbl,hbr,hheight,-⟩ := hbal
    simp only [LeafTree.height_branch] at hf
    rw [Finset.disjoint_union_right] at hself
    have hgself : Guard W w h n.self := hg.mono Finset.subset_union_left
    refine wp_bind_of hn.key_run (wp_bind_of hn.isLeaf_run ?_)
    simp only [Bool.false_eq_true,if_false,LeafTree.erase]
    by_cases hlt : oldKey < key
    · rw [if_pos hlt,if_pos hlt]
      refine wp_bind_of hn.left_run ?_
      have hgl : Guard W w h Fl := hg.mono fun x hx => by simp [hx]
      refine (@ihl _ _ _ fuel hl hbl (by omega) hgl).bind ?_
      intro p h₁ hp
      cases he : LeafTree.erase oldKey ⟨v,none⟩ left with
      | missing =>
        rw [he] at hp
        obtain ⟨rfl,rfl⟩ := hp
        exact (wp_pure ..).mpr ⟨rfl,rfl⟩
      | gone value =>
        rw [he] at hp
        obtain ⟨rfl,rfl⟩ := hp
        exact wp_bind_of hn.right_run ((wp_pure ..).mpr ⟨r,Fr,rfl,hr,Evolves.refl (by
          intro x hx
          simp [hx])⟩)
      | found value t newKey =>
        rw [he] at hp
        obtain ⟨n',Fl',rfl,hrep,hev⟩ := hp
        refine (mutate_setLeft hn hr hself.1 hself.2 hd hgself hev hrep).bind ?_
        rintro a h₂ ⟨h₃,hmod,ho,he₃⟩
        refine wp_bind_of hmod (update_reBalance ho he₃ hg ?_)
        exact fun a' h' F' hrep' he' => (wp_pure ..).mpr ⟨_,F',rfl,hrep',he'⟩
    · rw [if_neg hlt,if_neg hlt]
      refine wp_bind_of hn.right_run ?_
      have hgr : Guard W w h Fr := hg.mono fun x hx => by simp [hx]
      refine (@ihr _ _ _ fuel hr hbr (by omega) hgr).bind ?_
      intro p h₁ hp
      cases he : LeafTree.erase oldKey ⟨v,none⟩ right with
      | missing =>
        rw [he] at hp
        obtain ⟨rfl,rfl⟩ := hp
        exact (wp_pure ..).mpr ⟨rfl,rfl⟩
      | gone value =>
        rw [he] at hp
        obtain ⟨rfl,rfl⟩ := hp
        exact wp_bind_of hn.left_run ((wp_pure ..).mpr ⟨l,Fl,rfl,hl,Evolves.refl (by
          intro x hx
          simp [hx])⟩)
      | found value t newKey =>
        rw [he] at hp
        obtain ⟨n',Fr',rfl,hrep,hev⟩ := hp
        refine (mutate_setRight newKey hn hl hself.1 hself.2 hd hgself hev hrep).bind ?_
        rintro a h₂ ⟨h₃,hmod,ho,he₃⟩
        refine wp_bind_of hmod (update_reBalance ho he₃ hg ?_)
        exact fun a' h' F' hrep' he' => (wp_pure ..).mpr ⟨_,F',rfl,hrep',he'⟩

end

end Memiavl
