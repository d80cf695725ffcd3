import Mathlib.Data.List.Basic
import Mathlib.Data.List.Perm.Basic

/-! The binary heap in a slice: sifting an element down, building a heap from any slice, and
repairing it after its first element was changed or taken out. The order is given by a test that
need not tell all elements apart. -/

namespace MinHeap

open List

/-- A test for "less" that orders classes of elements. -/
structure StrictWeak {α : Type} (less : α → α → Bool) : Prop where
  asymm : ∀ a b, less a b = true → less b a = false
  trans : ∀ a b c, less b a = false → less c b = false → less c a = false

variable {α : Type}

theorem strictWeak_of_measure (f : α → ℕ) : StrictWeak fun a b => decide (f a < f b) :=
  ⟨fun a b h => by simp at h ⊢; omega,fun a b c hba hcb => by simp at hba hcb ⊢; omega⟩

def swap (l : List α) (i j : ℕ) : List α :=
  match l[i]?,l[j]? with
  | some x,some y => (l.set i y).set j x
  | _,_ => l

def lessAt (less : α → α → Bool) (l : List α) (i j : ℕ) : Bool :=
  match l[i]?,l[j]? with
  | some x,some y => less x y
  | _,_ => false

/-- The smaller child of `i` among the first `n` elements. -/
def child (less : α → α → Bool) (l : List α) (i n : ℕ) : ℕ :=
  if 2*i+2 < n ∧ lessAt less l (2*i+2) (2*i+1) then 2*i+2 else 2*i+1

/-- Moves the element at `i` down among the first `n` elements. The loop takes less than `n`
turns. -/
def down (less : α → α → Bool) : ℕ → List α → ℕ → ℕ → List α
  | 0,l,_,_ => l
  | fuel+1,l,i,n =>
    if n ≤ 2*i+1 then l
    else
      let j := child less l i n
      if lessAt less l j i then down less fuel (swap l i j) j n else l

def init (less : α → α → Bool) (l : List α) : List α :=
  (List.range (l.length/2)).reverse.foldl (fun l i => down less l.length l i l.length) l

def fix (less : α → α → Bool) (l : List α) : List α := down less l.length l 0 l.length

/-- `Remove` of the first element: the last one takes its place and moves down. -/
def remove (less : α → α → Bool) (l : List α) : List α :=
  let n := l.length-1
  if n = 0 then l.dropLast else (down less n (swap l 0 n) 0 n).dropLast

variable {l : List α} {i j c n : ℕ} {x : α}

theorem swap_eq (hi : i < l.length) (hj : j < l.length) :
    swap l i j = (l.set i l[j]).set j l[i] := by
  simp [swap,hi,hj]

theorem swap_perm (l : List α) (i j : ℕ) : (swap l i j).Perm l := by
  unfold swap
  split
  · rename_i x y hx hy
    obtain ⟨hi,rfl⟩ := List.getElem?_eq_some_iff.mp hx
    obtain ⟨hj,rfl⟩ := List.getElem?_eq_some_iff.mp hy
    have h : (l.toArray.swap i j hi hj).Perm l.toArray := Array.swap_perm hi hj
    simpa using Array.perm_iff_toList_perm.mp h
  · exact .refl l

@[simp] theorem length_swap (l : List α) (i j : ℕ) : (swap l i j).length = l.length :=
  (swap_perm l i j).length_eq

/-- Where the element at an index comes from. -/
def swapped (i j k : ℕ) : ℕ := if k = i then j else if k = j then i else k

theorem getElem?_swap (hi : i < l.length) (hj : j < l.length) (k : ℕ) :
    (swap l i j)[k]? = l[swapped i j k]? := by
  rw [swap_eq hi hj,swapped]
  by_cases hkj : k = j
  · subst hkj
    by_cases hki : k = i
    · subst hki
      simp [hi]
    · simp [hki,hi,hj]
  · by_cases hki : k = i
    · subst hki
      simp [hi,hj,Ne.symm hkj]
    · simp [hkj,hki,Ne.symm hkj,Ne.symm hki]

def Ordered (less : α → α → Bool) (l : List α) (p c : ℕ) : Prop :=
  ∀ x ∈ l[p]?, ∀ y ∈ l[c]?, less y x = false

def parent (c : ℕ) : ℕ := (c-1)/2

/-- The first `n` elements form a heap. -/
def Heap (less : α → α → Bool) (l : List α) (n : ℕ) : Prop :=
  ∀ c, 0 < c → c < n → Ordered less l (parent c) c

variable {less : α → α → Bool}

theorem Ordered.trans (h : StrictWeak less) {p d : ℕ} (hc : c < l.length) (hpc : Ordered less l p c)
    (hcd : Ordered less l c d) : Ordered less l p d := by
  intro x hx z hz
  have hy : l[c]? = some l[c] := getElem?_eq_getElem hc
  exact h.trans x l[c] z (hpc x hx _ hy) (hcd _ hy z hz)

theorem ordered_of_lessAt (h : StrictWeak less) (hless : lessAt less l i j = true) :
    Ordered less l i j := by
  intro x hx y hy
  rw [lessAt,Option.mem_def.mp hx,Option.mem_def.mp hy] at hless
  exact h.asymm x y hless

theorem ordered_of_not_lessAt (hless : ¬lessAt less l j i = true) : Ordered less l i j := by
  intro x hx y hy
  rw [lessAt,Option.mem_def.mp hx,Option.mem_def.mp hy] at hless
  simpa using hless

theorem ordered_swap (hi : i < l.length) (hj : j < l.length) (p c : ℕ) :
    Ordered less (swap l i j) p c ↔ Ordered less l (swapped i j p) (swapped i j c) := by
  rw [Ordered,Ordered,getElem?_swap hi hj,getElem?_swap hi hj]

theorem ordered_refl (h : StrictWeak less) (l : List α) (i : ℕ) : Ordered less l i i := by
  intro x hx y hy
  cases (Option.mem_def.mp hx).symm.trans (Option.mem_def.mp hy)
  cases hxx : less x x with
  | false => rfl
  | true => exact hxx.symm.trans (h.asymm x x hxx)

theorem down_succ (less : α → α → Bool) (fuel : ℕ) (l : List α) (i n : ℕ) :
    down less (fuel+1) l i n =
      if n ≤ 2*i+1 then l
      else if lessAt less l (child less l i n) i then
        down less fuel (swap l i (child less l i n)) (child less l i n) n
      else l := rfl

theorem parent_child (less : α → α → Bool) (l : List α) (i n : ℕ) : parent (child less l i n) = i := by
  unfold child parent
  split <;> omega

theorem child_lt (less : α → α → Bool) (l : List α) (h : ¬n ≤ 2*i+1) : child less l i n < n := by
  unfold child
  split <;> omega

theorem lt_child (less : α → α → Bool) (l : List α) (i n : ℕ) : i < child less l i n := by
  unfold child
  split <;> omega

theorem ordered_child (h : StrictWeak less) (hc : c < n) (hpos : 0 < c) (hparent : parent c = i) :
    Ordered less l (child less l i n) c := by
  have hor : c = 2*i+1 ∨ c = 2*i+2 := by
    unfold parent at hparent
    omega
  unfold child
  split
  · rename_i hright
    rcases hor with rfl | rfl
    · exact ordered_of_lessAt h hright.2
    · exact ordered_refl h l _
  · rename_i hleft
    rcases hor with rfl | rfl
    · exact ordered_refl h l _
    · exact ordered_of_not_lessAt fun hless => hleft ⟨hc,hless⟩

theorem down_perm (fuel : ℕ) (l : List α) (i n : ℕ) : (down less fuel l i n).Perm l := by
  induction fuel generalizing l i with
  | zero => exact .refl l
  | succ fuel ih =>
    rw [down_succ]
    split
    · exact .refl l
    · split
      · exact (ih _ _).trans (swap_perm ..)
      · exact .refl l

theorem getElem?_down {fuel : ℕ} {k : ℕ} (hn : n ≤ l.length) (hk : n ≤ k) :
    (down less fuel l i n)[k]? = l[k]? := by
  induction fuel generalizing l i with
  | zero => rfl
  | succ fuel ih =>
    rw [down_succ]
    split
    · rfl
    · rename_i hle
      split
      · have hj := child_lt less l hle
        rw [ih (by simpa using hn),getElem?_swap (by omega) (by omega),swapped,if_neg (by omega),
          if_neg (by omega)]
      · rfl

/-- What holds while an element moves down from `i₀`, at `i`: all pairs below `i₀` that do not
start at `i` are in order, and the children of `i` come after its parent. -/
structure Sifting (less : α → α → Bool) (l : List α) (i₀ i n : ℕ) : Prop where
  rest : ∀ c, 0 < c → c < n → i₀ ≤ parent c → parent c ≠ i → Ordered less l (parent c) c
  grand : 0 < i → i₀ ≤ parent i → ∀ c, 0 < c → c < n → parent c = i → Ordered less l (parent i) c

section
variable (h : StrictWeak less) (hn : n ≤ l.length)
include h hn

theorem Sifting.swap {i₀ : ℕ} (hs : Sifting less l i₀ i n) (hi₀ : i₀ ≤ i) (hle : ¬n ≤ 2*i+1)
    (hless : lessAt less l (child less l i n) i = true) :
    Sifting less (swap l i (child less l i n)) i₀ (child less l i n) n := by
  have hparent := parent_child less l i n
  have hlt := child_lt less l hle
  have hgt := lt_child less l i n
  have hj := fun c (hpos : 0 < c) (hc : c < n) (hp : parent c = i) =>
    ordered_child (l := l) h hc hpos hp
  generalize child less l i n = j at hparent hlt hgt hj hless ⊢
  constructor
  · intro c hpos hc hlo hne
    rw [ordered_swap (by omega) (by omega)]
    by_cases hpi : parent c = i
    · have hci : c ≠ i := by
        unfold parent at hpi
        omega
      rw [hpi,swapped,if_pos rfl]
      by_cases hcj : c = j
      · rw [hcj,swapped,if_neg (by omega),if_pos rfl]
        exact ordered_of_lessAt h hless
      · rw [swapped,if_neg hci,if_neg hcj]
        exact hj c hpos hc hpi
    · rw [swapped,if_neg hpi,if_neg hne]
      by_cases hci : c = i
      · subst hci
        rw [swapped,if_pos rfl]
        exact hs.grand hpos hlo j (by omega) hlt hparent
      · have hcj : c ≠ j := fun hcj => hpi (hcj ▸ hparent)
        rw [swapped,if_neg hci,if_neg hcj]
        exact hs.rest c hpos hc hlo hpi
  · intro _ _ c hpos hc hp
    have hcj : c ≠ j ∧ c ≠ i := by
      unfold parent at hp
      omega
    rw [ordered_swap (by omega) (by omega),hparent,swapped,if_pos rfl,swapped,if_neg hcj.2,
      if_neg hcj.1]
    have hrest := hs.rest c hpos hc (by omega) (by omega)
    rwa [hp] at hrest

theorem Sifting.down {fuel : ℕ} {i₀ : ℕ} (hfuel : n ≤ i+fuel) (hi₀ : i₀ ≤ i)
    (hs : Sifting less l i₀ i n) :
    ∀ c, 0 < c → c < n → i₀ ≤ parent c → Ordered less (down less fuel l i n) (parent c) c := by
  induction fuel generalizing l i with
  | zero =>
    intro c hpos hc hlo
    refine hs.rest c hpos hc hlo ?_
    unfold parent
    omega
  | succ fuel ih =>
    rw [down_succ]
    split
    · rename_i hle
      intro c hpos hc hlo
      refine hs.rest c hpos hc hlo ?_
      unfold parent
      omega
    · rename_i hle
      have hgt := lt_child less l i n
      split
      · rename_i hless
        exact ih (by simpa using hn) (by omega) (by omega) (hs.swap h hn hi₀ hle hless)
      · rename_i hless
        intro c hpos hc hlo
        by_cases hp : parent c = i
        · have hlt := child_lt less l hle
          rw [hp]
          exact (ordered_of_not_lessAt hless).trans h (by omega) (ordered_child h hc hpos hp)
        · exact hs.rest c hpos hc hlo hp

/-- Nothing in a heap is less than its first element. -/
theorem Heap.root_first (hl : Heap less l n) (hc : c < n) : Ordered less l 0 c := by
  induction c using Nat.strongRecOn with
  | ind c ih =>
    by_cases hpos : c = 0
    · rw [hpos]
      exact ordered_refl h l 0
    · have hlt : parent c < c := by
        unfold parent
        omega
      exact (ih (parent c) hlt (by omega)).trans h (by omega) (hl c (by omega) hc)

end

theorem length_down (fuel : ℕ) (l : List α) (i n : ℕ) : (down less fuel l i n).length = l.length :=
  (down_perm fuel l i n).length_eq

theorem init_fold (h : StrictWeak less) (k : ℕ)
    (hl : ∀ c, 0 < c → c < l.length → k ≤ parent c → Ordered less l (parent c) c) :
    let l' := (List.range k).reverse.foldl (fun l i => down less l.length l i l.length) l
    l'.Perm l ∧ Heap less l' l'.length := by
  induction k generalizing l with
  | zero => exact ⟨.refl l,fun c hpos hc => hl c hpos hc (Nat.zero_le _)⟩
  | succ k ih =>
    rw [range_succ,reverse_append,reverse_singleton,singleton_append,
      foldl_cons]
    have hsift : Sifting less l k k l.length := by
      constructor
      · exact fun c hpos hc hlo hne => hl c hpos hc (by omega)
      · intro hpos hlo
        unfold parent at hlo
        omega
    have hdown := hsift.down h (Nat.le_refl _) (by omega : l.length ≤ k+l.length) (Nat.le_refl _)
    obtain ⟨hperm,hheap⟩ := ih (l := down less l.length l k l.length)
      fun c hpos hc hlo => hdown c hpos (by rwa [length_down] at hc) hlo
    exact ⟨hperm.trans (down_perm ..),hheap⟩

theorem init_perm (h : StrictWeak less) (l : List α) : (init less l).Perm l :=
  (init_fold h (l.length/2) fun c hpos hc hlo => by unfold parent at hlo; omega).1

theorem heap_init (h : StrictWeak less) (l : List α) :
    Heap less (init less l) (init less l).length :=
  (init_fold h (l.length/2) fun c hpos hc hlo => by unfold parent at hlo; omega).2

theorem fix_perm (l : List α) : (fix less l).Perm l := down_perm ..

theorem ordered_cons_succ (x : α) (l : List α) (p c : ℕ) :
    Ordered less (x::l) (p+1) (c+1) ↔ Ordered less l p c := by
  rw [Ordered,Ordered,getElem?_cons_succ,getElem?_cons_succ]

theorem Heap.tail (hl : Heap less (x::l) n) (hpos : 0 < c) (hc : c < n) (hp : parent c ≠ 0) (y : α) :
    Ordered less (y::l) (parent c) c := by
  obtain ⟨c,rfl⟩ := Nat.exists_eq_succ_of_ne_zero (Nat.ne_of_gt hpos)
  obtain ⟨p,hp⟩ := Nat.exists_eq_succ_of_ne_zero hp
  have hold := hl (c+1) hpos hc
  rw [Nat.succ_eq_add_one] at hp ⊢
  rw [hp,ordered_cons_succ] at hold ⊢
  exact hold

theorem Heap.fix (h : StrictWeak less) (hl : Heap less (x::l) (l.length+1)) (y : α) :
    Heap less (fix less (y::l)) (MinHeap.fix less (y::l)).length := by
  have hsift : Sifting less (y::l) 0 0 (l.length+1) :=
    ⟨fun c hpos hc _ hne => hl.tail hpos hc hne y,fun hpos => absurd hpos (Nat.lt_irrefl 0)⟩
  rw [(fix_perm (y::l)).length_eq]
  exact fun c hpos hc => hsift.down h (Nat.le_refl _) (by simp) (Nat.le_refl _) c hpos hc (Nat.zero_le _)

theorem Heap.remove (h : StrictWeak less) (hl : Heap less (x::l) (l.length+1)) :
    (remove less (x::l)).Perm l ∧ Heap less (MinHeap.remove less (x::l)) l.length := by
  unfold MinHeap.remove
  simp only [length_cons,Nat.add_sub_cancel]
  split
  · rename_i hnil
    rw [eq_nil_of_length_eq_zero hnil]
    exact ⟨.refl [],fun c hpos hc => absurd hc (by simp)⟩
  · rename_i hne
    have hlen : (swap (x::l) 0 l.length).length = l.length+1 := by simp
    have hsift : Sifting less (swap (x::l) 0 l.length) 0 0 l.length := by
      refine ⟨fun c hpos hc _ hp => ?_,fun hpos => absurd hpos (Nat.lt_irrefl 0)⟩
      have hlt : parent c < l.length := by
        unfold parent
        omega
      rw [ordered_swap (by simp) (by simp),swapped,if_neg hp,if_neg (by omega),swapped,
        if_neg (by omega),if_neg (by omega)]
      exact hl.tail hpos (by omega) hp x
    have hheap := hsift.down h (by omega) (by omega : l.length ≤ 0+l.length) (Nat.le_refl _)
    have hperm : (down less l.length (swap (x::l) 0 l.length) 0 l.length).Perm
        (swap (x::l) 0 l.length) := down_perm ..
    have hlast : (down less l.length (swap (x::l) 0 l.length) 0 l.length).getLast? = some x := by
      rw [List.getLast?_eq_getElem?,length_down,hlen,Nat.add_sub_cancel,
        getElem?_down (hlen ▸ Nat.le_succ _) (Nat.le_refl _),getElem?_swap (by simp) (by simp),swapped,if_neg hne,
        if_pos rfl]
      rfl
    generalize down less l.length (swap (x::l) 0 l.length) 0 l.length = d at hheap hperm hlast
    have hd : d.dropLast ++ [x] = d := dropLast_append_getLast? x hlast
    constructor
    · have hall : (d.dropLast ++ [x]).Perm (x::l) := by
        rw [hd]
        exact hperm.trans (swap_perm ..)
      exact (perm_cons x).mp ((perm_append_singleton x d.dropLast).symm.trans hall)
    · have hdlen : d.length = l.length+1 := hperm.length_eq.trans hlen
      have hget : ∀ k, k < l.length → d.dropLast[k]? = d[k]? := by
        intro k hk
        rw [getElem?_dropLast,if_pos (by omega)]
      intro c hpos hc
      have hlt : parent c < l.length := by
        unfold parent
        omega
      rw [Ordered,hget _ hlt,hget _ hc]
      exact hheap c hpos hc (Nat.zero_le _)

end MinHeap
