import Memiavl.MembershipProof

/-! Proofs that a key is not in a tree: the existence proofs of the keys next to it. -/
namespace Memiavl

open HeapM LeafTree BinarySearch Option

theorem maintains_version (n : Node) : Maintains LaidCell n.version fun _ => True := by
  cases n with
  | mem a => exact (Maintains.load a).bind fun _ _ => .pure trivial
  | persisted p => exact .lift fun _ _ => trivial

theorem maintains_pathToLeaf (key : Bytes) (fuel : ℕ) : ∀ n : Node, LaidNode n →
    Maintains LaidCell (pathToLeaf key fuel n) fun _ => True := by
  induction fuel with
  | zero => exact fun n _ => .fail
  | succ fuel ih =>
    intro n hn
    refine (maintains_height n).bind fun height _ => (maintains_key n).bind fun nodeKey _ => ?_
    refine .ite (fun _ => .pure trivial) fun _ => ?_
    refine (maintains_size n).bind fun _ _ => (maintains_version n).bind fun _ _ => ?_
    refine .ite (fun _ => ?_) fun _ => ?_
    · refine (maintains_right hn).bind fun r _ => (maintains_hash fuel r).bind fun _ _ => ?_
      refine (maintains_left hn).bind fun l hl => (ih l hl).bind fun _ _ => ?_
      exact .pure trivial
    · refine (maintains_left hn).bind fun l _ => (maintains_hash fuel l).bind fun _ _ => ?_
      refine (maintains_right hn).bind fun r hr => (ih r hr).bind fun _ _ => ?_
      exact .pure trivial

theorem maintains_createExistenceProof {t : Tree} (ht : t.Laid) (key : Bytes) :
    Maintains LaidCell (t.createExistenceProof key) fun _ => True := by
  refine Maintains.bind (.lift (Q := LaidNode) ht) fun root hroot => ?_
  refine (maintains_fuel t).bind fun fuel _ => (maintains_pathToLeaf key fuel root hroot).bind ?_
  rintro ⟨path,node,err⟩ -
  refine (maintains_key node).bind fun _ _ => (maintains_value node).bind fun _ _ => ?_
  exact (maintains_version node).bind fun _ _ => .pure trivial

theorem getByIndex_behind_persisted {h : Heap} {p : PersistedNode} {t : Mixed} {fuel : ℕ}
    (hn : Lays h (.persisted p) t) {index : UInt32} (hindex : index.toNat = t.leafCount) :
    (Node.persisted p).getByIndex (fuel+1) index h = some ((none,none),h) := by
  obtain ⟨u,l,b,hp,rfl⟩ := lays_persisted.mp hn
  have hleaves := hp.leaves
  have hlen := u.length_toList
  rw [leafCount_mapAnn] at hindex
  simp [Node.getByIndex,hp.getByIndex_eq (show l+index.toNat < 2^32 by omega),entryAt,hlen,hindex]

theorem Lays.getByIndex_behind {h : Heap} {n : Node} {t : Mixed} {fuel : ℕ} (hn : Lays h n t)
    (ht : t.Balanced) (hfuel : t.height < fuel) (hcount : t.leafCount < 2^32) {index : UInt32}
    (hindex : index.toNat = t.leafCount) : n.getByIndex fuel index h = some ((none,none),h) := by
  induction t generalizing n fuel index with
  | leaf k v s =>
    obtain ⟨fuel,rfl⟩ : ∃ f, fuel = f+1 := ⟨fuel-1,by omega⟩
    cases n with
    | persisted p => exact getByIndex_behind_persisted hn hindex
    | mem a =>
      obtain ⟨c,hc,h0,-⟩ := hn
      have hne : index ≠ 0 := by
        rintro rfl
        simp [leafCount] at hindex
      simp [Node.getByIndex,run_bind,load_of hc,h0,hne]
  | branch height size k s left right ihl ihr =>
    obtain ⟨fuel,rfl⟩ : ∃ f, fuel = f+1 := ⟨fuel-1,by omega⟩
    cases n with
    | persisted p => exact getByIndex_behind_persisted hn hindex
    | mem a =>
      obtain ⟨l,r,hn,hl,hr⟩ := hn
      obtain ⟨hbl,hbr,hheight,-⟩ := ht
      rw [height_branch] at hfuel
      rw [leafCount] at hcount hindex
      have hmod : left.leafCount % 2^32 = left.leafCount := Nat.mod_eq_of_lt (by omega)
      have hsub : (index-.ofNat left.leafCount).toNat = index.toNat-left.leafCount % 2^32 :=
        toNat_sub_ofNat (by omega)
      rw [getByIndex_branch hn hl hbl,if_neg (by omega)]
      exact ihr hr hbr (by omega) (by omega) (by omega)

namespace CachedTree

variable {C : ValueCache Bytes Bytes} {h : Heap} {t : CachedTree C} {u : Mixed} {F : Finset ℕ} {m : Finmap fun _ : Bytes => Bytes}

theorem Inv.getByIndex_behind (hi : Inv h t (some u) F m) (hcard : m.keys.card < 2^32) :
    t.getByIndex (.ofNat m.keys.card) h = some ((none,none),h) := by
  have hint : (Int64.ofNat m.keys.card).toInt = m.keys.card := Int64.toInt_ofNat_of_lt (by omega)
  cases hroot : t.tree.root with
  | none =>
    have := hi.rep
    rw [hroot] at this
    exact this.elim
  | some n =>
    obtain ⟨_,hu,havl,hlays⟩ := hi.lays hroot
    obtain rfl := some.inj hu
    have hcount := hi.holds.card_keys havl.search
    rw [getByIndex_root hi hroot rfl (by rw [hint,maxUint32]; omega)]
    refine hlays.getByIndex_behind havl.balanced (Nat.lt_succ_self _) (by omega) ?_
    rw [hint,UInt32.ofInt,UInt32.toNat_ofNat',← hcount]
    omega

theorem Inv.createExistenceProof (hi : Inv h t (some u) F m) {key value : Bytes}
    (hkey : m.lookup key = some value) : Wp (t.tree.createExistenceProof key) h fun res h' =>
      res = (Mixed.existenceProof key u,none) ∧ Inv h' t (some u) F m := by
  have havl := hi.avl u rfl
  refine ((maintains_createExistenceProof hi.laid key).wp hi.cells
    (createExistenceProof_spec hi.rep havl.balanced key)).mono ?_
  rintro _ h' ⟨⟨rfl,hk⟩,hcells,-⟩
  have hleaf : (Mixed.leafTo key u).1 = key := by
    have hlookup := Mixed.lookup_eq_leafTo havl.search key
    rw [hi.holds.lookup_eq,hkey] at hlookup
    by_contra hne
    rw [if_neg hne] at hlookup
    cases hlookup
  exact ⟨by rw [if_pos hleaf],{ hi with rep := hi.rep.keeps hk, cells := hcells }⟩

/-- An existence proof as the tree gives it for this key, which evaluates to the hash of the root. -/
def Proves (t : CachedTree C) (h : Heap) (proof : ExistenceProof) : Prop :=
  (∃ h', t.getMembershipProof proof.key h = some (.ok (.exist proof),h')) ∧
    ∃ root h', t.tree.rootHash h = some (root,h') ∧
      proof.calculate proof.key proof.value = root.val

/-- A proof that names the keys next to a key. -/
structure Neighbours (t : CachedTree C) (h : Heap) (keys : Finset Bytes) (key : Bytes)
    (proof : NonExistenceProof) : Prop where
  key_eq : proof.key = key
  left_none : proof.left = none ↔ ∀ k ∈ keys, ¬k < key
  left : ∀ p ∈ proof.left, IsGreatest {k | k ∈ keys ∧ k < key} p.key ∧ t.Proves h p
  right_none : proof.right = none ↔ ∀ k ∈ keys, ¬key < k
  right : ∀ p ∈ proof.right, IsLeast {k | k ∈ keys ∧ key < k} p.key ∧ t.Proves h p
  adjacent : ∀ p ∈ proof.left, ∀ q ∈ proof.right, ∀ k ∈ keys, ¬(p.key < k ∧ k < q.key)

section
variable (hi : Inv h t (some u) F m)
include hi

theorem Inv.proves (hver : u.Verified) (hcard : m.keys.card < 2^63) {key value : Bytes}
    (hkey : m.lookup key = some value) :
    t.Proves h (Mixed.existenceProof key u) ∧ (Mixed.existenceProof key u).key = key := by
  have havl := hi.avl u rfl
  have hcount := hi.holds.card_keys havl.search
  obtain ⟨hpkey,hpvalue,hcalc,-⟩ := Mixed.existenceProof_of_lookup havl hver (by omega)
    ((hi.holds.lookup_eq key).trans hkey)
  obtain ⟨_,h',hproof,rfl,-⟩ := hi.createExistenceProof hkey
  obtain ⟨_,h'',hhash,rfl,-⟩ := Tree.rootHash_spec hi.rep hi.avl
  refine ⟨⟨⟨h',?_⟩,_,h'',hhash,?_⟩,hpkey⟩
  · rw [hpkey,getMembershipProof,run_bind,hproof]
    rfl
  · rw [hpkey,hpvalue]
    exact hcalc

theorem Inv.mem_keys (k : Bytes) : k ∈ u.keys ↔ k ∈ m.keys := by
  rw [← hi.holds.sort_keys (hi.avl u rfl).search,Finset.mem_sort]

theorem Inv.rank_eq (key : Bytes) : rank key u.keys = (m.keys.filter (· < key)).card := by
  rw [hi.holds.rank_eq (hi.avl u rfl).search]
  congr!

theorem Inv.leftProof (hcard : m.keys.card < 2^32) (key : Bytes) :
    Wp (t.leftProof (.ofNat (m.keys.filter (· < key)).card)) h fun res h' =>
      Inv h' t (some u) F m ∧ res.2 = none ∧ (res.1 = none ↔ ∀ k ∈ m.keys, ¬k < key) ∧
      ∀ p ∈ res.1, ∃ k value, p = Mixed.existenceProof k u ∧ m.lookup k = some value ∧
        IsGreatest {k | k ∈ m.keys ∧ k < key} k := by
  have havl := hi.avl u rfl
  have hrank := hi.rank_eq key
  have hle : (m.keys.filter (· < key)).card ≤ m.keys.card := Finset.card_filter_le ..
  generalize hr : (m.keys.filter (· < key)).card = r at hrank hle ⊢
  have hint : (Int64.ofNat r).toInt = r := Int64.toInt_ofNat_of_lt (by omega)
  unfold CachedTree.leftProof
  obtain _ | i := r
  · rw [if_neg (by decide)]
    refine (wp_pure ..).mpr ⟨hi,rfl,?_,by simp⟩
    simpa [Finset.card_eq_zero,Finset.filter_eq_empty_iff] using hr
  · have hge : Int64.ofNat (i+1) ≥ 1 := by
      rw [ge_iff_le,Int64.le_iff_toInt_le,hint]
      push_cast
      exact Int.le_add_of_nonneg_left (Int.natCast_nonneg i)
    have hpred : Int64.ofNat (i+1)-1 = Int64.ofNat i := by
      rw [Int64.ofNat_add]
      exact Int64.add_sub_cancel ..
    obtain ⟨k,value,hget,hsort,hlookup⟩ := hi.getByIndex_run (by omega) (by omega : i < m.keys.card)
    rw [if_pos hge,hpred]
    refine wp_bind_of hget ((hi.createExistenceProof hlookup).bind ?_)
    rintro _ h' ⟨rfl,hi'⟩
    have hgreatest := isGreatest_of_rank havl.search.keys_sorted hrank
      (hi.holds.sort_keys havl.search ▸ hsort)
    simp only [hi.mem_keys] at hgreatest
    refine (wp_pure ..).mpr ⟨hi',rfl,?_,?_⟩
    · simp only [reduceCtorEq,false_iff,not_forall,not_not]
      exact ⟨k,hgreatest.1.1,hgreatest.1.2⟩
    · rintro p ⟨⟩
      exact ⟨k,value,rfl,hlookup,hgreatest⟩

theorem Inv.rightProof (hcard : m.keys.card < 2^32) {key : Bytes} (hkey : m.lookup key = none) :
    Wp (t.rightProof (.ofNat (m.keys.filter (· < key)).card)) h fun res h' =>
      Inv h' t (some u) F m ∧ res.2 = none ∧ (res.1 = none ↔ ∀ k ∈ m.keys, ¬key < k) ∧
      ∀ p ∈ res.1, ∃ k value, p = Mixed.existenceProof k u ∧ m.lookup k = some value ∧
        IsLeast {k | k ∈ m.keys ∧ key < k} k := by
  have havl := hi.avl u rfl
  have hrank := hi.rank_eq key
  have hle : (m.keys.filter (· < key)).card ≤ m.keys.card := Finset.card_filter_le ..
  have hne : ∀ k ∈ m.keys, k ≠ key := by
    rintro k hk rfl
    rw [Finmap.mem_keys,Finmap.mem_iff] at hk
    obtain ⟨v,hv⟩ := hk
    rw [hkey] at hv
    cases hv
  unfold CachedTree.rightProof
  obtain hlt | hall := hle.lt_or_eq
  · obtain ⟨k,value,hget,hsort,hlookup⟩ := hi.getByIndex_run (by omega) hlt
    refine wp_bind_of hget ((hi.createExistenceProof hlookup).bind ?_)
    rintro _ h' ⟨rfl,hi'⟩
    rw [hi.holds.sort_keys havl.search,← hrank] at hsort
    obtain ⟨⟨hmem,hle⟩,hleast⟩ := isLeast_of_rank havl.search.keys_sorted hsort
    rw [hi.mem_keys] at hmem
    have hlt : key < k := lt_of_le_of_ne hle (hne k hmem).symm
    refine (wp_pure ..).mpr ⟨hi',rfl,?_,?_⟩
    · simp only [reduceCtorEq,false_iff,not_forall,not_not]
      exact ⟨k,hmem,hlt⟩
    · rintro p ⟨⟩
      refine ⟨k,value,rfl,hlookup,⟨hmem,hlt⟩,?_⟩
      rintro k' ⟨hmem',hlt'⟩
      exact hleast ⟨(hi.mem_keys k').mpr hmem',hlt'.le⟩
  · rw [hall]
    refine wp_bind_of (hi.getByIndex_behind hcard) ((wp_pure ..).mpr ⟨hi,rfl,?_,by simp⟩)
    have hbelow := Finset.filter_eq_self.mp (Finset.eq_of_subset_of_card_le
      (Finset.filter_subset ..) hall.ge)
    simpa using fun k hk => (hbelow k hk).le

end

/-- In a tree of fewer than `2^32` keys a key has a proof that it is missing exactly if it is, and
the proof names the keys next to it. -/
theorem getNonMembershipProof_names_neighbours (hi : Inv h t (some u) F m) (hver : u.Verified)
    (hcard : m.keys.card < 2^32) (key : Bytes) :
    (m.lookup key ≠ none → ∃ err h', t.getNonMembershipProof key h = some (.error err,h')) ∧
      (m.lookup key = none → ∃ proof h', t.getNonMembershipProof key h =
        some (.ok (.nonexist proof),h') ∧ t.Neighbours h' m.keys key proof) := by
  have hget := hi.getWithIndex_run key
  have hle : (m.keys.filter (· < key)).card ≤ m.keys.card := Finset.card_filter_le ..
  rw [Nat.mod_eq_of_lt (by omega)] at hget
  constructor
  · intro hsome
    obtain ⟨value,hvalue⟩ := ne_none_iff_exists'.mp hsome
    rw [hvalue] at hget
    exact ⟨_,h,by rw [getNonMembershipProof,run_bind,hget]; rfl⟩
  · intro hnone
    rw [hnone] at hget
    obtain ⟨⟨left,_⟩,h₁,hleft,hi₁,rfl,hleftNone,hleftProof⟩ := hi.leftProof hcard key
    obtain ⟨⟨right,_⟩,h₂,hright,hi₂,rfl,hrightNone,hrightProof⟩ := hi₁.rightProof hcard hnone
    refine ⟨⟨key,left,right⟩,h₂,?_,rfl,hleftNone,fun p hp => ?_,hrightNone,fun p hp => ?_,?_⟩
    · rw [getNonMembershipProof,run_bind,hget]
      simp only [bind_some,isSome_none,Bool.false_eq_true,if_false]
      rw [run_bind,hleft]
      simp only [bind_some]
      rw [run_bind,hright]
      rfl
    · obtain ⟨k,value,rfl,hlookup,hgreatest⟩ := hleftProof p hp
      obtain ⟨hproves,hkey⟩ := hi₂.proves hver (by omega) hlookup
      exact ⟨by rwa [hkey],hproves⟩
    · obtain ⟨k,value,rfl,hlookup,hleast⟩ := hrightProof p hp
      obtain ⟨hproves,hkey⟩ := hi₂.proves hver (by omega) hlookup
      exact ⟨by rwa [hkey],hproves⟩
    · -- A key in between would be next to the key on one of its sides.
      intro p hp q hq k hk hbetween
      obtain ⟨l,_,rfl,hl,hgreatest⟩ := hleftProof p hp
      obtain ⟨r,_,rfl,hr,hleast⟩ := hrightProof q hq
      rw [(hi₂.proves hver (by omega) hl).2,(hi₂.proves hver (by omega) hr).2] at hbetween
      obtain hlt | rfl | hgt := lt_trichotomy k key
      · exact absurd (hgreatest.2 ⟨hk,hlt⟩) (not_le.mpr hbetween.1)
      · rw [Finmap.mem_keys,Finmap.mem_iff] at hk
        obtain ⟨v,hv⟩ := hk
        rw [hnone] at hv
        cases hv
      · exact absurd (hleast.2 ⟨hk,hgt⟩) (not_le.mpr hbetween.2)

section
open Memiavl.Sample

def pairMap : Finmap fun _ : Bytes => Bytes := (Finmap.insert [2] [20] (Finmap.insert [1] [10] ∅))

def pairCached : CachedTree .lru := ⟨{ version := 1, root := some (.mem 2) },none,true⟩

theorem inv_pair : Inv pairHeap pairCached (some pairTree) {0,1,2} pairMap where
  rep := rep_pair
  avl := by simpa using (by decide : pairTree.Avl)
  holds := by
    rw [holds_some]
    intro k v
    by_cases h2 : k = [2]
    · subst h2
      simp [pairTree,pairMap,Finmap.lookup_insert,eq_comm]
    · by_cases h1 : k = [1]
      · subst h1
        simp [pairTree,pairMap,Finmap.lookup_insert_of_ne,Finmap.lookup_insert,eq_comm]
      · simp [pairTree,pairMap,h1,h2,Finmap.lookup_insert_of_ne]
  cells := by
    intro a c hc
    have hall : ∀ c ∈ pairHeap.cells, (∀ n ∈ c.left, ∃ b, n = .mem b) ∧ ∀ n ∈ c.right, ∃ b, n = .mem b := by
      simp [pairHeap,newLeafNode]
    obtain ⟨hl,hr⟩ := hall c (List.mem_of_getElem? hc)
    refine ⟨fun n hn => ?_,fun n hn => ?_⟩
    · obtain ⟨b,rfl⟩ := hl n hn
      trivial
    · obtain ⟨b,rfl⟩ := hr n hn
      trivial
  laid := by simp [pairCached,Tree.Laid,laidNode_mem]
  cache := by simp [pairCached]

theorem getNonMembershipProof_names_neighbours_pair :
    pairMap.lookup [3] = none ∧ ∃ proof h', pairCached.getNonMembershipProof [3] pairHeap =
      some (.ok (.nonexist proof),h') ∧ pairCached.Neighbours h' pairMap.keys [3] proof :=
  ⟨by decide,(getNonMembershipProof_names_neighbours inv_pair verified_pair (by decide) [3]).2
    (by decide)⟩

end

section
open Bytes

/-- Shorter byte strings come before one whose bytes are all the largest. -/
theorem lt_replicate_max {l : Bytes} {n : ℕ} (hl : l.length < n) : l < List.replicate n 255 := by
  induction l generalizing n with
  | nil =>
    obtain ⟨n,rfl⟩ : ∃ k, n = k+1 := ⟨n-1,by simp at hl; omega⟩
    exact List.Lex.nil
  | cons b bs ih =>
    obtain ⟨n,rfl⟩ : ∃ k, n = k+1 := ⟨n-1,by omega⟩
    rw [List.replicate_succ]
    have hb := b.toNat_lt
    obtain hlt | heq := lt_or_eq_of_le (show b.toNat ≤ 255 by omega)
    · exact List.Lex.rel hlt
    · obtain rfl : b = 255 := UInt8.toNat_inj.mp heq
      exact List.Lex.cons (ih (by simpa using hl))

theorem left_none_of_index_zero {key : Bytes} {proof : NonExistenceProof} {h' : Heap}
    (hget : t.getWithIndex key h = some ((0,none),h))
    (hproof : t.getNonMembershipProof key h = some (.ok (.nonexist proof),h')) : proof.left = none := by
  have hleft : t.leftProof 0 h = some ((none,none),h) := by
    rw [CachedTree.leftProof,if_neg (by decide)]
    rfl
  rw [getNonMembershipProof,run_bind,hget] at hproof
  simp only [bind_some,isSome_none,Bool.false_eq_true,if_false] at hproof
  rw [run_bind,hleft] at hproof
  simp only [bind_some] at hproof
  rw [run_bind,bind_eq_some_iff] at hproof
  obtain ⟨⟨⟨right,err⟩,h₂⟩,-,hproof⟩ := hproof
  cases err with
  | some err => cases hproof
  | none =>
    cases hproof
    rfl

/-- With `2^32` keys the rank of a key behind them all is zero in 32 bits: the proof that it is
missing has no left part. -/
theorem getNonMembershipProof_wide : ∃ t₀ : CachedTree .lru, newEmptyTree 0 0 = some t₀ ∧
    ∃ calls t h u F,
    run calls t₀ {} = some (t,h) ∧ Inv h t (some u) F (calls.foldl Call.apply ∅) ∧
    ∃ key, (calls.foldl Call.apply ∅).lookup key = none ∧
      ¬∃ proof h', t.getNonMembershipProof key h = some (.ok (.nonexist proof),h') ∧
        t.Neighbours h' (calls.foldl Call.apply ∅).keys key proof := by
  obtain ⟨t₀,ht₀⟩ : ∃ t₀ : CachedTree .lru, newEmptyTree 0 0 = some t₀ := ⟨_,rfl⟩
  obtain ⟨root,hi⟩ := (Start.empty ht₀).inv
  generalize hkeys : (List.range (2^32)).map (putLE 5) = keys
  have hnodup : keys.Nodup := hkeys ▸ nodup_counters (by norm_num)
  have hlen : keys.length = 2^32 := by rw [← hkeys,List.length_map,List.length_range]
  have hlength : ∀ k ∈ keys, k.length = 5 := by
    rw [← hkeys]
    rintro k hk
    obtain ⟨i,-,rfl⟩ := List.mem_map.mp hk
    exact length_putLE 5 i
  obtain ⟨t,h,hrun,root',F,hi⟩ := hi.run (keys.map fun key => .set key none)
  have hlookup := lookup_sets keys ∅
  have hcard := card_sets hnodup
  generalize hm : (keys.map fun key => Call.set key none).foldl Call.apply ∅ = m at hi hlookup hcard
  have hmem : ∀ k, k ∈ m.keys ↔ k ∈ keys := fun k => by
    rw [Finmap.mem_keys,Finmap.mem_iff,hlookup]
    by_cases hk : k ∈ keys <;> simp [hk]
  have hbelow : ∀ k ∈ m.keys, k < List.replicate 6 255 := fun k hk =>
    lt_replicate_max (by rw [hlength k ((hmem k).mp hk)]; norm_num)
  obtain ⟨k₀,hk₀⟩ : ∃ k, k ∈ m.keys := Finset.card_pos.mp (by omega)
  cases root' with
  | none =>
    have := eq_empty_of_holds hi.holds
    subst this
    simp at hk₀
  | some u =>
    refine ⟨t₀,ht₀,_,t,h,u,F,hrun,hm.symm ▸ hi,List.replicate 6 255,?_,?_⟩
    · rw [hm,hlookup,if_neg]
      · rfl
      · intro hin
        have := hlength _ hin
        simp at this
    · rintro ⟨proof,h',hproof,hnext⟩
      have hget := hi.getWithIndex_run (List.replicate 6 255)
      rw [Finset.filter_true_of_mem hbelow,hcard,hlen,Nat.mod_self,hlookup,
        if_neg (fun hin => absurd (hlength _ hin) (by simp))] at hget
      have hleft := left_none_of_index_zero hget hproof
      exact hnext.left_none.mp hleft k₀ (hm.symm ▸ hk₀) (hbelow k₀ hk₀)

end

end CachedTree

end Memiavl
