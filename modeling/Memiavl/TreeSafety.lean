import Memiavl.TreeRun

/-! What holds in every world that the operations on trees lead to: the balanced search
trees stay such, no cached hash is stale, and a copy and its original do not see each
other. -/
namespace Memiavl.World

open Option

theorem Reachable.good {N : Mixed → Prop} {P : Snapshot → Prop} {w : World}
    (hN : ∀ u : Mixed, u.ann.stored = none → N u)
    (hP : ∀ s, P s → ∃ root, s.tree = some root ∧ (∀ t ∈ root, t.Avl) ∧
      ∀ t ∈ root, LeafTree.Every N (t.mapAnn NodeInfo.stamp))
    (hw : Reachable P w) : w.Good N := by
  induction hw with
  | empty => exact ⟨_,_,inv_empty N⟩
  | step op _ hop hstep ih =>
    obtain ⟨r,w',hrun,hs⟩ := ih.step hN hP hop
    obtain ⟨-,rfl⟩ := Prod.mk.inj (some.inj (hrun.symm.trans hstep))
    exact hs.good

theorem every_true {κ ν α : Type} (t : LeafTree κ ν α) : t.Every fun _ => True := by
  induction t with
  | leaf k v a => trivial
  | branch h s k a l r ihl ihr => exact ⟨trivial,ihl,ihr⟩

theorem valid_every (s : Snapshot) (hs : s.Valid) : ∃ root, s.tree = some root ∧
    (∀ t ∈ root, t.Avl) ∧ ∀ t ∈ root, LeafTree.Every (fun _ : Mixed => True)
      (t.mapAnn NodeInfo.stamp) := by
  obtain ⟨root,hroot,havl⟩ := hs
  exact ⟨root,hroot,havl,fun t _ => every_true _⟩

theorem Reachable.good_valid {w : World} (hw : Reachable Snapshot.Valid w) :
    w.Good fun _ => True :=
  hw.good (fun _ _ => trivial) valid_every

/-- Every tree of a reachable world can be read and is a balanced search tree with the
right heights and sizes, and no further operation on it panics. -/
theorem avl_reachable {w : World} (hw : Reachable Snapshot.Valid w) :
    (∀ i x, w.trees i = some x → ∃ root, x.tree.contents w.heap = some root ∧
      ∀ t ∈ root, t.Avl ∧ t.keys.Pairwise (· < ·) ∧ t.Every fun u => u.size = u.leafCount) ∧
    ∀ op, w.Allowed Snapshot.Valid op → (w.step op).isSome := by
  have hgood := hw.good_valid
  constructor
  · intro i x hx
    obtain ⟨cells,view,hinv⟩ := hgood
    have havl := (hinv.ok i x hx).avl
    refine ⟨view i,(hinv.rep i x hx).contents havl rfl,fun t ht => ?_⟩
    exact ⟨havl t ht,(havl t ht).search.keys_sorted,(havl t ht).balanced.every_size_eq⟩
  · intro op hop
    obtain ⟨r,w',hrun,-⟩ := hgood.step (fun _ _ => trivial) valid_every hop
    simp [hrun]

/-- A tree with two entries, saved and copied. -/
theorem reachable_sample (P : Snapshot → Prop) : ∃ w, Reachable P w ∧ (w.trees 0).isSome ∧
    (w.trees 1).isSome := by
  have h₁ := Reachable.step (P := P) (.newEmptyTree 0 0) .empty ⟨rfl,by decide⟩ rfl
  have h₂ := h₁.step (.set 0 [2] (some [9])) rfl rfl
  have h₃ := h₂.step (.set 0 [1] none) rfl rfl
  have h₄ := h₃.step (.saveVersion 0 false) rfl rfl
  exact ⟨_,h₄.step (.copy 0 1) ⟨rfl,_,rfl,rfl⟩ rfl,rfl,rfl⟩

theorem avl_reachable_sample : ∃ w, Reachable Snapshot.Valid w ∧ ∃ x, w.trees 0 = some x ∧
    ∃ root, x.tree.contents w.heap = some root ∧ ∀ t ∈ root, t.Avl := by
  obtain ⟨w,hw,h0,-⟩ := reachable_sample Snapshot.Valid
  obtain ⟨x,hx⟩ := isSome_iff_exists.mp h0
  obtain ⟨root,hroot,ht⟩ := (avl_reachable hw).1 0 x hx
  exact ⟨w,hw,x,hx,root,hroot,fun t h => (ht t h).1⟩

def copyPending : List Op :=
  [.newEmptyTree 0 0,.set 0 [1] none,.set 0 [2] none,.copy 0 1,.set 0 [3] none,.set 0 [4] none,
    .set 0 [5] none,.set 1 [0] none]

/-- A tree is copied before its entries are saved. Further changes of the tree and of the copy then
meet in the same nodes, and a branch counts five leaves where there are six. -/
theorem copy_pending_shares_nodes : ∃ w x t,
    copyPending.foldlM (fun w op => (step w op).map Prod.snd) empty = some w ∧
      w.trees 0 = some x ∧ x.tree.contents w.heap = some (some t) ∧ t.size = 5 ∧ t.leafCount = 6 := by
  have hex : ((copyPending.foldlM (fun w op => (step w op).map Prod.snd) empty).any fun w =>
      (w.trees 0).any fun x => (x.tree.contents w.heap).any fun root => root.any fun t =>
        t.size = 5 ∧ t.leafCount = 6) = true := by
    decide +kernel
  obtain ⟨w,hw,hex⟩ := (any_eq_true ..).mp hex
  obtain ⟨x,hx,hex⟩ := (any_eq_true ..).mp hex
  obtain ⟨root,hroot,hex⟩ := (any_eq_true ..).mp hex
  obtain ⟨t,rfl,hex⟩ := (any_eq_true ..).mp hex
  exact ⟨w,x,t,hw,hx,hroot,of_decide_eq_true hex⟩

/-- `VerifyHash` of a node: its stored hash, if any, is what `HashNode` computes. -/
def NodeVerified (u : Mixed) : Prop := ∀ d ∈ u.ann.stored, d = hashNode (Mixed.contents u)

theorem verified_every (s : Snapshot) (hs : s.Valid ∧ s.Verified) : ∃ root, s.tree = some root ∧
    (∀ t ∈ root, t.Avl) ∧ ∀ t ∈ root, LeafTree.Every NodeVerified (t.mapAnn NodeInfo.stamp) := by
  obtain ⟨⟨root,hroot,havl⟩,hv⟩ := hs
  exact ⟨root,hroot,havl,hv root hroot⟩

theorem nodeVerified_none (u : Mixed) (hu : u.ann.stored = none) : NodeVerified u := by
  intro d hd
  simp [hu] at hd

/-- The hash that a tree would have if every hash were computed anew. -/
def freshHash (root : Option Mixed) : Digest := Memiavl.rootHash (root.map Mixed.contents)

theorem hashRoot_eq {root : Option Mixed} (h : ∀ t ∈ root, t.Verified) :
    Mixed.hashRoot root = freshHash root := by
  cases root with
  | none => rfl
  | some t => exact (h t rfl).hash_eq

/-- What `RootHash` returns, and what `SaveVersion` returns when it updates the hashes, is the
hash computed from the nodes of the tree alone. -/
theorem rootHash_not_stale {w : World} (hw : Reachable (fun s => s.Valid ∧ s.Verified) w) {i : ℕ}
    {x : Handle} (hx : w.trees i = some x) : ∃ root, x.tree.contents w.heap = some root ∧
      (∃ w', w.step (.rootHash i) = some (.hash (freshHash root),w')) ∧
      (x.tree.version.toNat ≠ maxUint32 → ∃ w', w.step (.saveVersion i true) =
        some (.saved (some (freshHash root)) (x.tree.version+1),w')) := by
  have hgood := hw.good nodeVerified_none verified_every
  have hgood' := hgood
  obtain ⟨cells,view,hinv⟩ := hgood'
  have hok := hinv.ok i x hx
  have hhash : Mixed.hashRoot (view i) = freshHash (view i) := hashRoot_eq hok.every
  have hstate := hinv.state_eq hx
  refine ⟨view i,(hinv.rep i x hx).contents hok.avl rfl,?_,fun hmax => ?_⟩
  · obtain ⟨r,w',hrun,hs⟩ := hgood.step nodeVerified_none verified_every
      (show w.Allowed _ (.rootHash i) by simp [Allowed,hx])
    obtain ⟨-,rfl⟩ := hs.own _ hstate
    exact ⟨w',by rw [hrun,← hhash]; rfl⟩
  · obtain ⟨r,w',hrun,hs⟩ := hgood.step nodeVerified_none verified_every
      (show w.Allowed _ (.saveVersion i true) by simp [Allowed,hx])
    obtain ⟨-,rfl⟩ := hs.own _ hstate
    refine ⟨w',?_⟩
    rw [hrun,← hhash]
    simp [TreeState.reply,Handle.state,hmax]

theorem rootHash_not_stale_sample : ∃ w, Reachable (fun s => s.Valid ∧ s.Verified) w ∧
    ∃ x root w', w.trees 1 = some x ∧ x.tree.contents w.heap = some root ∧
      w.step (.rootHash 1) = some (.hash (freshHash root),w') := by
  obtain ⟨w,hw,-,h1⟩ := reachable_sample fun s => s.Valid ∧ s.Verified
  obtain ⟨x,hx⟩ := isSome_iff_exists.mp h1
  obtain ⟨root,hroot,⟨w',hstep⟩,-⟩ := rootHash_not_stale hw hx
  exact ⟨w,hw,x,root,w',hx,hroot,hstep⟩

/-- A run of allowed operations. -/
inductive Run (P : Snapshot → Prop) : World → List Op → World → Prop
  | nil (w : World) : Run P w [] w
  | cons {w w₁ w₂ : World} (op : Op) {ops : List Op} {r : Reply} : w.Allowed P op →
      w.step op = some (r,w₁) → Run P w₁ ops w₂ → Run P w (op :: ops) w₂

section
variable {N : Mixed → Prop} {P : Snapshot → Prop} {w u w' : World} {k : ℕ} {s : TreeState}

theorem Good.state_some (hw : w.Good N) {x : Handle} (hx : w.trees k = some x) :
    ∃ s, w.state k = some s ∧ s.pending = x.pending := by
  obtain ⟨cells,view,hinv⟩ := hw
  exact ⟨_,hinv.state_eq hx,rfl⟩

theorem Stepped.trees_none {op : Op} {r : Reply} (hw : w.Good N) (hs : Stepped N w op r w') {i : ℕ}
    (hi : w'.trees i = none) : w.trees i = none := by
  cases hx : w.trees i with
  | none => rfl
  | some x =>
    obtain ⟨s,hst,-⟩ := hw.state_some hx
    by_cases hon : i = op.on
    · obtain ⟨y,hy⟩ := trees_of_state (hs.own s (hon ▸ hst)).1
      simp [← hon,hi] at hy
    · obtain ⟨y,hy⟩ := trees_of_state (hs.other i s hon hst)
      simp [hi] at hy

/-- What may be done with a tree depends on the tree alone, and on the name of a copy
being free. -/
theorem Allowed.transfer {op : Op} (hw : w.Good N) (hu : u.Good N) (hk : op.on = k)
    (hws : w.state k = some s) (hus : u.state k = some s)
    (hdom : ∀ i, w.trees i = none → u.trees i = none) (hop : w.Allowed P op) :
    u.Allowed P op := by
  obtain ⟨x,hx⟩ := trees_of_state hws
  obtain ⟨y,hy⟩ := trees_of_state hus
  subst hk
  cases op with
  | newEmptyTree id version | newFromSnapshot id sn =>
    simp [Allowed,show w.trees id = some x from hx] at hop
  | copy id dst =>
    obtain ⟨hdst,x',hx',hp⟩ := hop
    obtain ⟨s₁,hs₁,hp₁⟩ := hw.state_some hx'
    obtain ⟨s₂,hs₂,hp₂⟩ := hu.state_some (k := id) hy
    obtain rfl := some.inj (hs₁.symm.trans hws)
    obtain rfl := some.inj (hs₂.symm.trans hus)
    exact ⟨hdom dst hdst,y,hy,by rw [← hp₂,hp₁,hp]⟩
  | _ => exact isSome_iff_exists.mpr ⟨y,hy⟩

/-- A tree goes through a run as it goes through the part of the run that concerns it. -/
theorem Run.isolated (hN : ∀ u : Mixed, u.ann.stored = none → N u)
    (hP : ∀ s, P s → ∃ root, s.tree = some root ∧ (∀ t ∈ root, t.Avl) ∧
      ∀ t ∈ root, LeafTree.Every N (t.mapAnn NodeInfo.stamp)) {ops : List Op}
    (hrun : Run P w ops w') (hw : w.Good N) (hu : u.Good N) (hws : w.state k = some s)
    (hus : u.state k = some s) (hdom : ∀ i, w.trees i = none → u.trees i = none) :
    ∃ u', Run P u (ops.filter fun op => op.on = k) u' ∧ w'.Good N ∧ u'.Good N ∧
      ∃ s', w'.state k = some s' ∧ u'.state k = some s' := by
  induction hrun generalizing u s with
  | nil w => exact ⟨u,.nil u,hw,hu,s,hws,hus⟩
  | @cons w w₁ w₂ op ops r hop hstep _ ih =>
    obtain ⟨r',w₁',hstep',hs⟩ := hw.step hN hP hop
    obtain ⟨-,rfl⟩ := Prod.mk.inj (some.inj (hstep'.symm.trans hstep))
    by_cases hk : op.on = k
    · -- Both runs make the operation.
      have hopu := Allowed.transfer hw hu hk hws hus hdom hop
      obtain ⟨ru,u₁,hstepu,hsu⟩ := hu.step hN hP hopu
      have hws₁ := (hs.own s (hk ▸ hws)).1
      have hus₁ := (hsu.own s (hk ▸ hus)).1
      rw [hk] at hws₁ hus₁
      have hdom₁ : ∀ i, w₁'.trees i = none → u₁.trees i = none := by
        intro i hi
        by_contra hne
        have hcreated := hsu.created i (hdom i (hs.trees_none hw hi)) (isSome_iff_ne_none.mpr hne)
        simpa [hi] using hs.makes i hcreated
      obtain ⟨u',hrunu,hrest⟩ := ih hs.good hsu.good hws₁ hus₁ hdom₁
      refine ⟨u',?_,hrest⟩
      rw [List.filter_cons_of_pos (by simpa using hk)]
      exact .cons op hopu hstepu hrunu
    · -- Only the full run makes it, and the tree does not notice.
      have hws₁ := hs.other k s (Ne.symm hk) hws
      obtain ⟨u',hrunu,hrest⟩ := ih hs.good hu hws₁ hus fun i hi => hdom i (hs.trees_none hw hi)
      refine ⟨u',?_,hrest⟩
      rwa [List.filter_cons_of_neg (by simpa using hk)]

end

/-- Original and copy after any later operations on them, and on any other trees: each is
what it would be had only its own operations been made, and has the same root hash. -/
theorem copy_isolation {w w₁ w₂ : World} {i c : ℕ} {r : Reply} {ops : List Op}
    (hw : Reachable Snapshot.Valid w) (hcopy : w.Allowed Snapshot.Valid (.copy i c))
    (hstep : w.step (.copy i c) = some (r,w₁)) (hrun : Run Snapshot.Valid w₁ ops w₂) {k : ℕ}
    (hk : k = i ∨ k = c) :
    ∃ w₃, Run Snapshot.Valid w₁ (ops.filter fun op => op.on = k) w₃ ∧
      ∃ s, w₂.state k = some s ∧ w₃.state k = some s ∧
      ∃ d u v, w₂.step (.rootHash k) = some (.hash d,u) ∧
        w₃.step (.rootHash k) = some (.hash d,v) := by
  have hgood := hw.good_valid
  obtain ⟨r',w₁',hstep',hs⟩ := hgood.step (fun _ _ => trivial) valid_every hcopy
  obtain ⟨-,rfl⟩ := Prod.mk.inj (some.inj (hstep'.symm.trans hstep))
  obtain ⟨s,hst⟩ : ∃ s, w₁'.state k = some s := by
    rcases hk with rfl | rfl
    · obtain ⟨-,x,hx,-⟩ := hcopy
      obtain ⟨s,hst,-⟩ := hgood.state_some hx
      exact ⟨_,(hs.own s hst).1⟩
    · obtain ⟨x,hx⟩ := isSome_iff_exists.mp (hs.makes k rfl)
      obtain ⟨s,hst,-⟩ := hs.good.state_some hx
      exact ⟨s,hst⟩
  obtain ⟨w₃,hrun₃,hgood₂,hgood₃,s',hs₂,hs₃⟩ :=
    hrun.isolated (fun _ _ => trivial) valid_every hs.good hs.good hst hst fun _ hi => hi
  obtain ⟨x₂,hx₂⟩ := trees_of_state hs₂
  obtain ⟨x₃,hx₃⟩ := trees_of_state hs₃
  obtain ⟨_,u,hu,hsu⟩ := hgood₂.step (fun _ _ => trivial) valid_every
    (show w₂.Allowed _ (.rootHash k) by simp [Allowed,hx₂])
  obtain ⟨_,v,hv,hsv⟩ := hgood₃.step (fun _ _ => trivial) valid_every
    (show w₃.Allowed _ (.rootHash k) by simp [Allowed,hx₃])
  obtain ⟨-,rfl⟩ := hsu.own s' hs₂
  obtain ⟨-,rfl⟩ := hsv.own s' hs₃
  exact ⟨w₃,hrun₃,s',hs₂,hs₃,_,u,v,hu,hv⟩

/-- A tree is copied, then original and copy store different values under one key. -/
theorem copy_isolation_sample : ∃ w w₁ w₂, Reachable Snapshot.Valid w ∧
    w.step (.copy 0 1) = some (.done,w₁) ∧
    Run Snapshot.Valid w₁ [.set 0 [2] (some [7]),.set 1 [2] (some [8])] w₂ ∧
    ∃ w₃, Run Snapshot.Valid w₁ [.set 1 [2] (some [8])] w₃ ∧ w₂.state 1 = w₃.state 1 := by
  have h₁ := Reachable.step (P := Snapshot.Valid) (.newEmptyTree 0 0) .empty ⟨rfl,by decide⟩ rfl
  have h₂ := h₁.step (.set 0 [2] (some [9])) rfl rfl
  have h₃ := h₂.step (.saveVersion 0 false) rfl rfl
  refine ⟨_,_,_,h₃,rfl,.cons _ (by exact rfl) rfl (.cons _ (by exact rfl) rfl (.nil _)),?_⟩
  obtain ⟨w₃,hw₃,s,hs₂,hs₃,-⟩ := copy_isolation (i := 0) (c := 1) h₃ ⟨rfl,_,rfl,rfl⟩ rfl
    (.cons (.set 0 [2] (some [7])) (by exact rfl) rfl
      (.cons (.set 1 [2] (some [8])) (by exact rfl) rfl (.nil _))) (k := 1) (.inr rfl)
  exact ⟨w₃,hw₃,hs₂.trans hs₃.symm⟩

end Memiavl.World
