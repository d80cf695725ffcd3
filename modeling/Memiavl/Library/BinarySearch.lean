import Mathlib

/-! Binary search with a test that may fail, and the rank of a key in an increasing list. -/

namespace BinarySearch

open List

/-- The smallest position from `i` up to `j` where the test holds, if it holds from some position
on. The number of turns is bounded by the first argument. -/
def search (test : ℕ → Option Bool) : ℕ → ℕ → ℕ → Option ℕ
  | 0,_,_ => none
  | turns+1,i,j =>
    if i < j then
      (test ((i+j)/2)).bind fun found =>
        if found then search test turns i ((i+j)/2) else search test turns ((i+j)/2+1) j
    else some i

theorem search_eq {test : ℕ → Option Bool} {turns i j k : ℕ} (hik : i ≤ k) (hkj : k ≤ j)
    (htest : ∀ x, i ≤ x → x < j → test x = some (decide (k ≤ x))) (hturns : j-i < turns) :
    search test turns i j = some k := by
  induction turns generalizing i j with
  | zero => omega
  | succ turns ih =>
    rw [search]
    by_cases hij : i < j
    · rw [if_pos hij,htest _ (by omega) (by omega),Option.bind_some]
      by_cases hk : k ≤ (i+j)/2
      · rw [decide_eq_true hk,if_pos rfl]
        exact ih hik hk (fun x h₁ h₂ => htest x h₁ (by omega)) (by omega)
      · rw [decide_eq_false hk,if_neg Bool.false_ne_true]
        exact ih (by omega) hkj (fun x h₁ h₂ => htest x (by omega) h₂) (by omega)
    · rw [if_neg hij]
      exact congrArg some (by omega)

section
variable {κ : Type} [LinearOrder κ]

/-- The number of keys below a key. -/
def rank (key : κ) (l : List κ) : ℕ := l.countP (· < key)

@[simp] theorem rank_nil (key : κ) : rank key [] = 0 := rfl

theorem rank_cons (key a : κ) (l : List κ) :
    rank key (a::l) = rank key l+if a < key then 1 else 0 := by
  simp [rank,countP_cons]

theorem rank_append (key : κ) (l₁ l₂ : List κ) : rank key (l₁ ++ l₂) = rank key l₁+rank key l₂ := by
  simp [rank]

theorem rank_le_length (key : κ) (l : List κ) : rank key l ≤ l.length := countP_le_length

variable {key : κ} {l : List κ}

theorem rank_eq_zero (h : ∀ x ∈ l, key ≤ x) : rank key l = 0 := by
  rw [rank,countP_eq_zero]
  intro x hx
  simpa using h x hx

theorem rank_eq_length (h : ∀ x ∈ l, x < key) : rank key l = l.length := by
  rw [rank,countP_eq_length]
  intro x hx
  simpa using h x hx

/-- In an increasing list the keys from the rank on are the ones not below the key. -/
theorem le_getElem_iff (hl : l.Pairwise (· < ·)) {x : ℕ} (hx : x < l.length) :
    key ≤ l[x] ↔ rank key l ≤ x := by
  induction l generalizing x with
  | nil => simp at hx
  | cons a l ih =>
    obtain ⟨ha,hl⟩ := pairwise_cons.mp hl
    rw [rank_cons]
    by_cases hlt : a < key
    · rw [if_pos hlt]
      cases x with
      | zero => simpa using hlt
      | succ x =>
        rw [getElem_cons_succ,ih hl (Nat.lt_of_succ_lt_succ hx)]
        omega
    · have hzero : rank key l = 0 := rank_eq_zero fun y hy => (not_lt.mp hlt).trans (ha y hy).le
      rw [if_neg hlt,hzero]
      have hle : a ≤ (a::l)[x] := by
        cases x with
        | zero => exact le_rfl
        | succ x => exact (ha _ (getElem_mem _)).le
      simpa using (not_lt.mp hlt).trans hle

/-- The last element below a key stands in front of its rank. -/
theorem isGreatest_of_rank {k : κ} (hl : l.Pairwise (· < ·)) {i : ℕ} (hrank : rank key l = i+1)
    (hk : l[i]? = some k) : IsGreatest {x | x ∈ l ∧ x < key} k := by
  obtain ⟨hi,rfl⟩ := List.getElem?_eq_some_iff.mp hk
  refine ⟨⟨getElem_mem hi,?_⟩,?_⟩
  · rw [← not_le,le_getElem_iff hl hi]
    omega
  · rintro x ⟨hx,hlt⟩
    obtain ⟨j,hj,rfl⟩ := getElem_of_mem hx
    rw [← not_le,le_getElem_iff hl hj] at hlt
    exact (hl.imp le_of_lt).rel_get_of_le (a := ⟨j,hj⟩) (b := ⟨i,hi⟩) (by simp; omega)

/-- The first element that is not below a key stands at its rank. -/
theorem isLeast_of_rank {k : κ} (hl : l.Pairwise (· < ·)) (hk : l[rank key l]? = some k) :
    IsLeast {x | x ∈ l ∧ key ≤ x} k := by
  obtain ⟨hi,rfl⟩ := List.getElem?_eq_some_iff.mp hk
  refine ⟨⟨getElem_mem hi,(le_getElem_iff hl hi).mpr le_rfl⟩,?_⟩
  rintro x ⟨hx,hle⟩
  obtain ⟨j,hj,rfl⟩ := getElem_of_mem hx
  rw [le_getElem_iff hl hj] at hle
  exact (hl.imp le_of_lt).rel_get_of_le (a := ⟨_,hi⟩) (b := ⟨j,hj⟩) hle

end

end BinarySearch
