import Memiavl.Library.LeafTree
import Memiavl.Library.BinarySearch

/-! The entries of a search tree as a finite map: what an update does to the entries, and where
the entry of a key stands among them. -/

namespace LeafTree

open BinarySearch List

variable {κ ν α : Type}

@[simp] theorem toList_branch (h s : ℕ) (k : κ) (a : α) (l r : LeafTree κ ν α) :
    (branch h s k a l r).toList = l.toList ++ r.toList := rfl

@[simp] theorem toList_leaf (k : κ) (v : ν) (a : α) : (leaf k v a).toList = [(k,v)] := rfl
@[simp] theorem toList_mk (k : κ) (a : α) (l r : LeafTree κ ν α) :
    (mk k a l r).toList = l.toList ++ r.toList := rfl

@[simp] theorem toList_setAnn (a : α) (t : LeafTree κ ν α) : (t.setAnn a).toList = t.toList := by
  cases t <;> rfl

@[simp] theorem toList_mapAnn {β : Type} (f : α → β) (t : LeafTree κ ν α) :
    (t.mapAnn f).toList = t.toList := by
  induction t with
  | leaf k v a => rfl
  | branch h s k a l r ihl ihr => simp [mapAnn,ihl,ihr]

@[simp] theorem toList_rotateRight (a : α) (t : LeafTree κ ν α) :
    (rotateRight a t).toList = t.toList := by
  unfold rotateRight
  split <;> simp

@[simp] theorem toList_rotateLeft (a : α) (t : LeafTree κ ν α) :
    (rotateLeft a t).toList = t.toList := by
  unfold rotateLeft
  split <;> simp

@[simp] theorem toList_reBalance (a : α) (t : LeafTree κ ν α) :
    (reBalance a t).toList = t.toList := by
  unfold reBalance
  split
  · rfl
  · split_ifs <;> simp

theorem length_toList (t : LeafTree κ ν α) : t.toList.length = t.leafCount := by
  rw [← length_keys,keys_eq_map_toList,length_map]

@[simp] theorem leafCount_mapAnn {β : Type} (f : α → β) (t : LeafTree κ ν α) :
    (t.mapAnn f).leafCount = t.leafCount := by
  rw [← length_keys,keys_mapAnn,length_keys]

theorem key_mem_keys {t : LeafTree κ ν α} {e : κ × ν} (he : e ∈ t.toList) : e.1 ∈ t.keys := by
  rw [keys_eq_map_toList]
  exact List.mem_map_of_mem he

section
variable [LinearOrder κ]

/-- What an update of one side says about both sides, when the other side keeps its entries. -/
theorem update_left {p q l r : Prop} (hr : r → q) : (p ∨ q ∧ l) ∨ r ↔ p ∨ q ∧ (l ∨ r) := by
  tauto

theorem update_right {p q l r : Prop} (hl : l → q) : l ∨ (p ∨ q ∧ r) ↔ p ∨ q ∧ (l ∨ r) := by
  tauto

theorem Search.mem_toList_insert {t : LeafTree κ ν α} (ht : t.Search) (key : κ) (value : ν) (a : α)
    (e : κ × ν) :
    e ∈ (t.insert key value a).1.toList ↔ e = (key,value) ∨ e.1 ≠ key ∧ e ∈ t.toList := by
  induction t with
  | leaf k v b =>
    simp only [LeafTree.insert]
    split_ifs with h1 h2
    · have hne : e = (k,v) → e.1 ≠ key := fun he => he ▸ h1.ne'
      simp only [toList_branch,toList_leaf,mem_append,mem_singleton]
      tauto
    · have hne : e = (k,v) → e.1 ≠ key := fun he => he ▸ h2.ne
      simp only [toList_branch,toList_leaf,mem_append,mem_singleton]
      tauto
    · have hk : k = key := le_antisymm (not_lt.mp h1) (not_lt.mp h2)
      have hne : e = (k,v) → ¬ e.1 ≠ key := fun he => not_not.mpr (he ▸ hk)
      simp only [toList_leaf,mem_singleton,hk]
      rw [hk] at hne
      tauto
  | branch h s k b l r ihl ihr =>
    obtain ⟨hl,hr,hk,hlt⟩ := ht
    -- An entry on the other side has another key.
    have hleft : key < k → e ∈ r.toList → e.1 ≠ key := fun hkey he =>
      (hkey.trans_le (hk ▸ hr.minKey_le (key_mem_keys he))).ne'
    have hright : ¬ key < k → e ∈ l.toList → e.1 ≠ key := fun hkey he =>
      ((hlt _ (key_mem_keys he)).trans_le (not_lt.mp hkey)).ne
    have hil := ihl hl
    have hir := ihr hr
    simp only [LeafTree.insert]
    split_ifs with h1 h2 h2 <;>
      simp only [toList_reBalance,toList_mk,toList_branch,mem_append,hil,hir]
    · exact update_left (hleft h1)
    · exact update_left (hleft h1)
    · exact update_right (hright h1)
    · exact update_right (hright h1)

theorem Search.mem_toList_erase {t : LeafTree κ ν α} (ht : t.Search) (key : κ) (a : α) :
    match t.erase key a with
    | .missing => ∀ e ∈ t.toList, e.1 ≠ key
    | .gone v => t.toList = [(key,v)]
    | .found v u _ => (key,v) ∈ t.toList ∧ ∀ e, e ∈ u.toList ↔ e.1 ≠ key ∧ e ∈ t.toList := by
  induction t with
  | leaf k v b =>
    simp only [erase]
    split_ifs with h
    · simp [h]
    · simpa using h
  | branch h s k b l r ihl ihr =>
    obtain ⟨hl,hr,hk,hlt⟩ := ht
    have hleft : key < k → ∀ e ∈ r.toList, e.1 ≠ key := fun hkey e he =>
      (hkey.trans_le (hk ▸ hr.minKey_le (key_mem_keys he))).ne'
    have hright : ¬ key < k → ∀ e ∈ l.toList, e.1 ≠ key := fun hkey e he =>
      ((hlt _ (key_mem_keys he)).trans_le (not_lt.mp hkey)).ne
    simp only [erase]
    split_ifs with hkey
    · have ih := ihl hl
      have hother := hleft hkey
      cases he : erase key a l with
      | missing =>
        rw [he] at ih
        simp only [toList_branch,mem_append]
        rintro e (hel | her)
        · exact ih e hel
        · exact hother e her
      | gone v =>
        rw [he] at ih
        simp only at ih
        refine ⟨by simp [ih],fun e => ?_⟩
        have := hother e
        have hgone : e = (key,v) → ¬ e.1 ≠ key := fun h => not_not.mpr (h ▸ rfl)
        simp only [toList_branch,mem_append,ih,mem_singleton]
        tauto
      | found v u nk =>
        rw [he] at ih
        refine ⟨by simp [ih.1],fun e => ?_⟩
        have := hother e
        simp only [toList_reBalance,toList_mk,toList_branch,mem_append,ih.2]
        tauto
    · have ih := ihr hr
      have hother := hright hkey
      cases he : erase key a r with
      | missing =>
        rw [he] at ih
        simp only [toList_branch,mem_append]
        rintro e (hel | her)
        · exact hother e hel
        · exact ih e her
      | gone v =>
        rw [he] at ih
        simp only at ih
        refine ⟨by simp [ih],fun e => ?_⟩
        have := hother e
        have hgone : e = (key,v) → ¬ e.1 ≠ key := fun h => not_not.mpr (h ▸ rfl)
        simp only [toList_branch,mem_append,ih,mem_singleton]
        tauto
      | found v u nk =>
        rw [he] at ih
        refine ⟨by simp [ih.1],fun e => ?_⟩
        have := hother e
        simp only [toList_reBalance,toList_mk,toList_branch,mem_append,ih.2]
        tauto

end

section
variable [DecidableEq κ]

/-- The tree, if there is one, has exactly the entries of the map. -/
def Holds (root : Option (LeafTree κ ν α)) (m : Finmap fun _ : κ => ν) : Prop :=
  ∀ k v, (∃ t ∈ root, (k,v) ∈ t.toList) ↔ m.lookup k = some v

theorem holds_none : Holds (none : Option (LeafTree κ ν α)) ∅ := by
  simp [Holds]

variable {t : LeafTree κ ν α} {m : Finmap fun _ : κ => ν}

theorem holds_some : Holds (some t) m ↔ ∀ k v, (k,v) ∈ t.toList ↔ m.lookup k = some v := by
  simp [Holds]

variable [LinearOrder κ]

section
variable (hm : Holds (some t) m) (ht : t.Search)
include hm ht

/-- The keys of the map in ascending order are those of the tree from left to right. -/
theorem Holds.sort_keys : m.keys.sort (· ≤ ·) = t.keys := by
  have hkeys : m.keys = t.keys.toFinset := by
    ext k
    rw [Finmap.mem_keys,Finmap.mem_iff,List.mem_toFinset,keys_eq_map_toList,List.mem_map]
    simp only [Prod.exists,exists_and_right,exists_eq_right,holds_some.mp hm]
  have hsorted := ht.keys_sorted
  rw [hkeys]
  exact (toFinset_sort _ (hsorted.imp fun h => h.ne)).mpr (hsorted.imp fun h => h.le)

theorem Holds.card_keys : m.keys.card = t.leafCount := by
  rw [← Finset.length_sort (· ≤ ·),hm.sort_keys ht,length_keys]

theorem Holds.rank_eq (key : κ) : rank key t.keys = (m.keys.filter (· < key)).card := by
  rw [← hm.sort_keys ht,rank,countP_eq_length_filter]
  have hnodup : ((m.keys.sort (· ≤ ·)).filter (· < key)).Nodup := (Finset.sort_nodup ..).filter _
  rw [← toFinset_card_of_nodup hnodup,toFinset_filter,Finset.sort_toFinset]
  simp

theorem Holds.getElem {i : ℕ} (hi : i < t.leafCount) :
    ∃ k v, t.toList[i]? = some (k,v) ∧ (m.keys.sort (· ≤ ·))[i]? = some k ∧ m.lookup k = some v := by
  have hlen := t.length_toList
  obtain ⟨⟨k,v⟩,hget⟩ : ∃ e, t.toList[i]? = some e := ⟨_,getElem?_eq_getElem (hlen ▸ hi)⟩
  refine ⟨k,v,hget,?_,(holds_some.mp hm k v).mp (mem_of_getElem? hget)⟩
  rw [hm.sort_keys ht,keys_eq_map_toList,getElem?_map,hget]
  rfl

end

end

section
variable [BEq κ] [LawfulBEq κ]

theorem lookup_eq_none {key : κ} {l : List (κ × ν)} (h : ∀ e ∈ l, e.1 ≠ key) : l.lookup key = none := by
  rw [List.lookup_eq_none_iff]
  intro e he
  simpa using (h e he).symm

variable [LinearOrder κ]

/-- Among increasing keys only the entry at the rank of a key can have this key. -/
theorem lookup_eq_getElem {l : List (κ × ν)} (hl : (l.map Prod.fst).Pairwise (· < ·)) (key : κ) :
    l.lookup key = (l[rank key (l.map Prod.fst)]?).bind fun e =>
      if e.1 = key then some e.2 else none := by
  induction l with
  | nil => rfl
  | cons e l ih =>
    obtain ⟨k,v⟩ := e
    rw [map_cons] at hl ⊢
    obtain ⟨hk,hl⟩ := pairwise_cons.mp hl
    rw [rank_cons,lookup_cons]
    rcases lt_trichotomy k key with hlt | rfl | hgt
    · have hne : (key == k) = false := by simpa using hlt.ne'
      rw [hne,if_pos hlt,getElem?_cons_succ]
      exact ih hl
    · have hzero : rank k (l.map Prod.fst) = 0 := rank_eq_zero fun x hx => (hk x hx).le
      simp [hzero]
    · have hne : (key == k) = false := by simpa using hgt.ne
      have hzero : rank key (l.map Prod.fst) = 0 :=
        rank_eq_zero fun x hx => (hgt.trans (hk x hx)).le
      have hnone : l.lookup key = none :=
        lookup_eq_none fun e he => (hgt.trans (hk e.1 (List.mem_map_of_mem he))).ne'
      simp [hne,hzero,hnone,not_lt.mpr hgt.le,hgt.ne']

variable {l r : LeafTree κ ν α} {k key : κ}

theorem lookup_left (hle : ∀ x ∈ r.keys, k ≤ x) (hkey : key < k) :
    (l.toList ++ r.toList).lookup key = l.toList.lookup key := by
  have hnone : r.toList.lookup key = none :=
    lookup_eq_none fun e he => (hkey.trans_le (hle _ (key_mem_keys he))).ne'
  rw [lookup_append,hnone,Option.or_none]

theorem lookup_right (hlt : ∀ x ∈ l.keys, x < k) (hkey : ¬ key < k) :
    (l.toList ++ r.toList).lookup key = r.toList.lookup key := by
  have hnone : l.toList.lookup key = none :=
    lookup_eq_none fun e he => ((hlt _ (key_mem_keys he)).trans_le (not_lt.mp hkey)).ne
  rw [lookup_append,hnone,Option.none_or]

end

section
variable [LinearOrder κ] {l r : LeafTree κ ν α} {k key : κ}

theorem rank_left (hle : ∀ x ∈ r.keys, k ≤ x) (hkey : key < k) :
    rank key (l.keys ++ r.keys) = rank key l.keys := by
  rw [rank_append,rank_eq_zero fun x hx => (hkey.trans_le (hle x hx)).le,Nat.add_zero]

theorem rank_right (hlt : ∀ x ∈ l.keys, x < k) (hkey : ¬ key < k) :
    rank key (l.keys ++ r.keys) = l.leafCount+rank key r.keys := by
  rw [rank_append,rank_eq_length fun x hx => (hlt x hx).trans_le (not_lt.mp hkey),length_keys]

end

theorem Holds.lookup_eq [DecidableEq κ] [BEq κ] [LawfulBEq κ] {t : LeafTree κ ν α}
    {m : Finmap fun _ : κ => ν} (hm : Holds (some t) m) (key : κ) :
    t.toList.lookup key = m.lookup key := by
  have hmem := holds_some.mp hm key
  cases hlookup : t.toList.lookup key with
  | none =>
    refine (Option.eq_none_iff_forall_ne_some.mpr fun v hv => ?_).symm
    simpa using List.lookup_eq_none_iff.mp hlookup _ ((hmem v).mpr hv)
  | some v =>
    obtain ⟨before,after,hlist,-⟩ := lookup_eq_some_iff.mp hlookup
    exact ((hmem v).mp (by simp [hlist])).symm

end LeafTree
