import Mathlib.Data.List.Sort
import Mathlib.Data.List.Nodup
import Mathlib.Data.Nat.Notation

/-! Lists of things with a key: their positions by key, changes at the position of a key, and
their order by key. -/

namespace KeyedList

open List

variable {α κ : Type} (key : α → κ)

def positions (n : ℕ) (l : List α) : List (κ × ℕ) := (l.zipIdx n).map fun p => (key p.1,p.2)

theorem lookup_positions [BEq κ] [LawfulBEq κ] [DecidableEq κ] (n : ℕ) (l : List α) (k : κ) :
    (positions key n l).lookup k = (l.findIdx? fun x => key x = k).map (· + n) := by
  induction l generalizing n with
  | nil => rfl
  | cons x l ih =>
    simp only [positions] at ih
    simp only [positions,zipIdx_cons,map_cons,lookup_cons,findIdx?_cons,ih]
    by_cases hx : key x = k
    · simp [hx]
    · rw [beq_false_of_ne (Ne.symm hx)]
      simp [hx,Function.comp_def,Nat.add_assoc,Nat.add_comm n 1]

variable {key} {l l' : List α} {k : κ}

/-- At most one thing has the key `k`. -/
def AtMostOne [DecidableEq κ] (key : α → κ) (k : κ) (l : List α) : Prop :=
  (l.filter fun x => key x = k).length ≤ 1

instance [DecidableEq κ] (key : α → κ) (k : κ) (l : List α) : Decidable (AtMostOne key k l) :=
  inferInstanceAs (Decidable (_ ≤ _))

namespace AtMostOne
variable [DecidableEq κ]

theorem of_nodup (hl : (l.map key).Nodup) (k : κ) : AtMostOne key k l := by
  induction l with
  | nil => simp [AtMostOne]
  | cons x l ih =>
    obtain ⟨hx,hl⟩ := nodup_cons.mp hl
    by_cases hk : key x = k
    · have hnil : l.filter (fun y => key y = k) = [] := by
        rw [filter_eq_nil_iff]
        intro y hy
        simp only [decide_eq_true_eq]
        rintro rfl
        exact hx (hk ▸ List.mem_map_of_mem hy)
      simp [AtMostOne,hk,hnil]
    · have := ih hl
      rwa [AtMostOne,filter_cons_of_neg (by simpa using hk)]

theorem of_perm (h : l.Perm l') (hl : AtMostOne key k l) : AtMostOne key k l' := by
  rw [AtMostOne,← (h.filter _).length_eq]
  exact hl

theorem ne_of_head {x : α} (h : AtMostOne key k (x::l)) (hx : key x = k) : ∀ y ∈ l, key y ≠ k := by
  rw [AtMostOne,filter_cons_of_pos (by simpa using hx),length_cons] at h
  have hnil : l.filter (fun y => key y = k) = [] := eq_nil_of_length_eq_zero (by omega)
  simpa using hnil

theorem tail {x : α} (h : AtMostOne key k (x::l)) : AtMostOne key k l :=
  (((sublist_cons_self x l).filter _).length_le).trans h

end AtMostOne

/-- Where a key stands at most once, a change at its position is a change of what has that key. -/
theorem modify_eq_map [DecidableEq κ] (hl : AtMostOne key k l) {i : ℕ}
    (hi : l.findIdx? (fun x => key x = k) = some i) (f : α → α) :
    l.modify i f = l.map fun x => if key x = k then f x else x := by
  induction l generalizing i with
  | nil => cases hi
  | cons x l ih =>
    rw [findIdx?_cons] at hi
    by_cases hk : key x = k
    · simp only [hk,decide_true,if_true,Option.some.injEq] at hi
      subst hi
      have hid : ∀ y ∈ l, (if key y = k then f y else y) = y := fun y hy =>
        if_neg (hl.ne_of_head hk y hy)
      rw [map_cons,map_congr_left hid,List.map_id',modify_zero_cons,if_pos hk]
    · simp only [hk,decide_false,Bool.false_eq_true,if_false,Option.map_eq_some_iff] at hi
      obtain ⟨j,hj,rfl⟩ := hi
      rw [map_cons,modify_succ_cons,if_neg hk,ih hl.tail hj]

/-- Where a key stands at most once, the removal at its position removes what has that key. -/
theorem eraseIdx_eq_filter [DecidableEq κ] (hl : AtMostOne key k l) {i : ℕ}
    (hi : l.findIdx? (fun x => key x = k) = some i) :
    l.eraseIdx i = l.filter fun x => key x ≠ k := by
  induction l generalizing i with
  | nil => cases hi
  | cons x l ih =>
    rw [findIdx?_cons] at hi
    by_cases hk : key x = k
    · simp only [hk,decide_true,if_true,Option.some.injEq] at hi
      subst hi
      rw [eraseIdx_cons_zero,filter_cons_of_neg (by simpa using hk),filter_eq_self.mpr]
      intro y hy
      simpa using hl.ne_of_head hk y hy
    · simp only [hk,decide_false,Bool.false_eq_true,if_false,Option.map_eq_some_iff] at hi
      obtain ⟨j,hj,rfl⟩ := hi
      rw [eraseIdx_cons_succ,filter_cons_of_pos (by simpa using hk),ih hl.tail hj]

section
variable [LinearOrder κ]

/-- In the strict order of their keys. -/
def Strict (key : α → κ) (l : List α) : Prop := (l.map key).Pairwise (· < ·)

theorem Strict.nodup (h : Strict key l) : (l.map key).Nodup := h.imp fun hlt => hlt.ne

theorem pairwise_insertionSort (key : α → κ) (l : List α) :
    (l.insertionSort fun a b => key a ≤ key b).Pairwise fun a b => key a ≤ key b :=
  haveI : Std.Total fun a b : α => key a ≤ key b := ⟨fun a b => le_total (key a) (key b)⟩
  haveI : IsTrans α fun a b => key a ≤ key b := ⟨fun _ _ _ => le_trans⟩
  List.pairwise_insertionSort _ l

theorem strict_of_nodup (hle : l.Pairwise fun a b => key a ≤ key b) (hl : (l.map key).Nodup) :
    Strict key l := by
  rw [← pairwise_map] at hle
  exact (hle.and hl).imp fun h => lt_of_le_of_ne h.1 h.2

theorem Strict.orderedInsert (h : Strict key l) {x : α} (hx : key x ∉ l.map key) :
    Strict key (l.orderedInsert (fun a b => key a ≤ key b) x) := by
  have : Std.Total fun a b : α => key a ≤ key b := ⟨fun a b => le_total (key a) (key b)⟩
  have : IsTrans α fun a b => key a ≤ key b := ⟨fun _ _ _ => le_trans⟩
  refine strict_of_nodup ?_ ?_
  · refine List.Pairwise.orderedInsert x l ?_
    rw [← pairwise_map]
    exact h.imp le_of_lt
  · rw [((perm_orderedInsert _ x l).map key).nodup_iff,map_cons,nodup_cons]
    exact ⟨hx,h.nodup⟩

theorem strict_insertionSort (hl : (l.map key).Nodup) :
    Strict key (l.insertionSort fun a b => key a ≤ key b) := by
  have hnodup : ((l.insertionSort fun a b => key a ≤ key b).map key).Nodup :=
    ((perm_insertionSort _ l).map key).nodup_iff.mpr hl
  exact strict_of_nodup (pairwise_insertionSort key l) hnodup

/-- The order by key does not depend on the order before, if the keys are different. -/
theorem insertionSort_eq_of_perm (h : l.Perm l') (hl : (l.map key).Nodup) :
    l.insertionSort (fun a b => key a ≤ key b) = l'.insertionSort fun a b => key a ≤ key b := by
  have hperm := (perm_insertionSort (fun a b => key a ≤ key b) l).trans
    (h.trans (perm_insertionSort (fun a b => key a ≤ key b) l').symm)
  refine hperm.eq_of_pairwise ?_ (pairwise_insertionSort key l) (pairwise_insertionSort key l')
  intro a b ha hb hab hba
  have ha : a ∈ l := (mem_insertionSort _).mp ha
  have hb : b ∈ l := h.mem_iff.mpr ((mem_insertionSort _).mp hb)
  exact inj_on_of_nodup_map hl ha hb (le_antisymm hab hba)

theorem Strict.insertionSort_eq (h : Strict key l) :
    l.insertionSort (fun a b => key a ≤ key b) = l := by
  have hle : l.Pairwise fun a b => key a ≤ key b := by
    rw [← pairwise_map]
    exact h.imp le_of_lt
  exact hle.insertionSort_eq

theorem filter_orderedInsert (k : κ) (x : α) (l : List α) :
    (l.orderedInsert (fun a b => key a ≤ key b) x).filter (key · = k) =
      (x::l).filter (key · = k) := by
  induction l with
  | nil => rfl
  | cons y l ih =>
    by_cases hxy : key x ≤ key y
    · rw [List.orderedInsert,if_pos hxy]
    · rw [orderedInsert_of_not_le _ l hxy,filter_cons,ih]
      -- `y` comes before `x` now, so only one of the two can have the key `k`.
      by_cases hx : key x = k
      · have hy : key y ≠ k := fun hy => hxy (hx.trans hy.symm).le
        simp [hx,hy]
      · simp [filter_cons,hx]

/-- The sort is stable. -/
theorem filter_insertionSort (k : κ) (l : List α) :
    (l.insertionSort fun a b => key a ≤ key b).filter (key · = k) = l.filter (key · = k) := by
  induction l with
  | nil => rfl
  | cons x l ih => rw [insertionSort_cons,filter_orderedInsert,filter_cons,ih,filter_cons]

theorem mem_iff_of_filter (hf : ∀ k, l.filter (key · = k) = l'.filter (key · = k)) (x : α) :
    x ∈ l ↔ x ∈ l' := by
  have := congrArg (x ∈ ·) (hf (key x))
  simpa using this

/-- What is in the order of the keys is given by what stands under each single key. -/
theorem eq_of_filter (h : l.Pairwise fun a b => key a ≤ key b)
    (h' : l'.Pairwise fun a b => key a ≤ key b)
    (hf : ∀ k, l.filter (key · = k) = l'.filter (key · = k)) : l = l' := by
  induction l generalizing l' with
  | nil =>
    have hnil : l' = [] := eq_nil_iff_forall_not_mem.mpr fun x hx => by
      simpa using (mem_iff_of_filter hf x).mpr hx
    exact hnil.symm
  | cons a l ih =>
    cases l' with
    | nil => simpa using mem_iff_of_filter hf a
    | cons b l' =>
      have hle : ∀ {x y : α} {m : List α}, (x::m).Pairwise (fun a b => key a ≤ key b) →
          y ∈ x::m → key x ≤ key y := by
        intro x y m hm hy
        rcases mem_cons.mp hy with rfl | hy
        · exact le_rfl
        · exact rel_of_pairwise_cons hm hy
      have hab : key a = key b :=
        le_antisymm (hle h ((mem_iff_of_filter hf b).mpr mem_cons_self))
          (hle h' ((mem_iff_of_filter hf a).mp mem_cons_self))
      have hhead := hf (key a)
      simp only [filter_cons,hab,decide_true,if_true,List.cons.injEq] at hhead
      obtain ⟨rfl,-⟩ := hhead
      have htail : ∀ k, l.filter (key · = k) = l'.filter (key · = k) := by
        intro k
        have := hf k
        by_cases hk : key a = k
        · simpa [filter_cons,hk] using this
        · simpa [filter_cons,hk] using this
      rw [ih h.of_cons h'.of_cons htail]

/-- The sorted list is given by what stands under each single key before. -/
theorem insertionSort_eq_of_filter (hf : ∀ k, l.filter (key · = k) = l'.filter (key · = k)) :
    l.insertionSort (fun a b => key a ≤ key b) = l'.insertionSort fun a b => key a ≤ key b := by
  refine eq_of_filter (pairwise_insertionSort key l) (pairwise_insertionSort key l') fun k => ?_
  rw [filter_insertionSort,filter_insertionSort,hf k]

end

end KeyedList
