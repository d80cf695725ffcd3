import Memiavl.Library.MinHeap
import Mathlib.Data.List.Perm.Lattice
import Mathlib.Data.List.Forall2

/-! Merging sorted streams with a heap of their next elements. If every stream is sorted and can be
read to its end, the merge gives all their elements in order. -/

namespace KWayMerge

open MinHeap List

variable {α σ ε : Type}

/-- Reading a stream to its end gives these elements. -/
inductive Yields (next : σ → Except ε (Option (α × σ))) : σ → List α → Prop
  | done {s : σ} : next s = .ok none → Yields next s []
  | more {s s' : σ} {x : α} {xs : List α} : next s = .ok (some (x,s')) → Yields next s' xs →
    Yields next s (x::xs)

/-- The next element of a stream, and the stream behind it. -/
structure Entry (α σ : Type) where
  value : α
  stream : σ

def lessEntry (less : α → α → Bool) (a b : Entry α σ) : Bool := less a.value b.value

section
variable (next : σ → Except ε (Option (α × σ))) (less : α → α → Bool)

def entries : List σ → Except ε (List (Entry α σ))
  | [] => .ok []
  | s::ss =>
    match next s with
    | .error err => .error err
    | .ok none => entries ss
    | .ok (some (x,s')) => (entries ss).map (⟨x,s'⟩::·)

def start (streams : List σ) : Except ε (List (Entry α σ)) :=
  (entries next streams).map (init (lessEntry less))

/-- Takes the first element and reads the next one of its stream. -/
def pop : List (Entry α σ) → Except ε (Option (α × List (Entry α σ)))
  | [] => .ok none
  | e::es =>
    match next e.stream with
    | .error err => .error err
    | .ok none => .ok (some (e.value,remove (lessEntry less) (e::es)))
    | .ok (some (x,s)) => .ok (some (e.value,fix (lessEntry less) (⟨x,s⟩::es)))

/-- Elements until there is none. -/
def drain : ℕ → List (Entry α σ) → Except ε (List α)
  | 0,_ => .ok []
  | fuel+1,es =>
    match pop next less es with
    | .error err => .error err
    | .ok none => .ok []
    | .ok (some (x,es)) => (drain fuel es).map (x::·)

/-- The entry stands for its value and what its stream gives. -/
def Holds (e : Entry α σ) (l : List α) : Prop := ∃ rest, l = e.value::rest ∧ Yields next e.stream rest

/-- No element is less than one before it. -/
def Sorted (l : List α) : Prop := l.Pairwise fun a b => less b a = false

/-- The state of a merge that has these sorted lists left. -/
structure Merging (es : List (Entry α σ)) (ls : List (List α)) : Prop where
  holds : List.Forall₂ (Holds next) es ls
  sorted : ∀ l ∈ ls, Sorted less l
  heap : Heap (lessEntry less) es es.length

end

variable {next : σ → Except ε (Option (α × σ))} {less : α → α → Bool}

theorem strictWeak_entry (h : StrictWeak less) : StrictWeak (lessEntry less : Entry α σ → _ → _) :=
  ⟨fun a b => h.asymm a.value b.value,fun a b c => h.trans a.value b.value c.value⟩

variable {es : List (Entry α σ)} {ls : List (List α)}

/-- Entries in another order stand for the lists in another order. -/
theorem merging_of_perm {es' : List (Entry α σ)} (hholds : List.Forall₂ (Holds next) es ls)
    (hsorted : ∀ l ∈ ls, Sorted less l) (hperm : es'.Perm es)
    (hheap : Heap (lessEntry less) es' es'.length) :
    ∃ ls', ls'.Perm ls ∧ Merging next less es' ls' := by
  obtain ⟨ls',hls',hp⟩ := perm_comp_forall₂ hperm hholds
  exact ⟨ls',hp,hls',fun l hl => hsorted l (hp.mem_iff.mp hl),hheap⟩

theorem Merging.first (h : StrictWeak less) {e : Entry α σ} (hm : Merging next less (e::es) ls) :
    ∀ x ∈ ls.flatten, less x e.value = false := by
  intro x hx
  obtain ⟨l,hl,hxl⟩ := mem_flatten.mp hx
  obtain ⟨i,hi,rfl⟩ := getElem_of_mem hl
  have hlen := hm.holds.length_eq
  have hie : i < (e::es).length := by omega
  obtain ⟨rest,hrest,-⟩ := (forall₂_iff_get.mp hm.holds).2 i hie hi
  have hroot : less ((e::es)[i]).value e.value = false :=
    hm.heap.root_first (strictWeak_entry h) (Nat.le_refl _) hie e rfl _
      (getElem?_eq_getElem hie)
  have hsorted := hm.sorted _ hl
  simp only [get_eq_getElem] at hrest
  rw [hrest] at hxl hsorted
  rcases mem_cons.mp hxl with rfl | hxr
  · exact hroot
  · exact h.trans _ _ _ hroot ((pairwise_cons.mp hsorted).1 x hxr)

theorem Merging.pop (h : StrictWeak less) {e : Entry α σ} (hm : Merging next less (e::es) ls) :
    ∃ es' ls',
    KWayMerge.pop next less (e::es) = .ok (some (e.value,es')) ∧ Merging next less es' ls' ∧
      (e.value::ls'.flatten).Perm ls.flatten := by
  obtain ⟨hholds,hsorted,hheap⟩ := hm
  obtain ⟨l,ls,⟨rest,rfl,hyields⟩,hes,rfl⟩ := forall₂_cons_left_iff.mp hholds
  have hrest := hsorted _ mem_cons_self
  cases hyields with
  | done hnext =>
    -- The stream is at its end, and its entry goes.
    obtain ⟨hperm,hheap'⟩ := hheap.remove (strictWeak_entry h)
    rw [← hperm.length_eq] at hheap'
    obtain ⟨ls',hp,hm'⟩ :=
      merging_of_perm hes (fun l hl => hsorted l (mem_cons_of_mem _ hl)) hperm hheap'
    exact ⟨_,ls',by rw [KWayMerge.pop,hnext],hm',(hp.flatten).cons e.value⟩
  | more hnext hyields =>
    rename_i s x xs
    have hnew : List.Forall₂ (Holds next) (⟨x,s⟩::es) ((x::xs)::ls) :=
      .cons ⟨xs,rfl,hyields⟩ hes
    have hsorted' : ∀ l ∈ (x::xs)::ls, Sorted less l := by
      intro l hl
      rcases mem_cons.mp hl with rfl | hl
      · exact (pairwise_cons.mp hrest).2
      · exact hsorted l (mem_cons_of_mem _ hl)
    obtain ⟨ls',hp,hm'⟩ :=
      merging_of_perm hnew hsorted' (fix_perm _) (hheap.fix (strictWeak_entry h) ⟨x,s⟩)
    exact ⟨_,ls',by rw [KWayMerge.pop,hnext],hm',(hp.flatten).cons e.value⟩

/-- The merge is a stream of all elements in order. -/
theorem Merging.yields (h : StrictWeak less) (hm : Merging next less es ls) : ∃ out,
    Yields (KWayMerge.pop next less) es out ∧ out.Perm ls.flatten ∧ Sorted less out := by
  -- By the number of elements that are left.
  induction hn : ls.flatten.length generalizing es ls with
  | zero =>
    cases es with
    | nil => exact ⟨[],.done rfl,eq_nil_of_length_eq_zero hn ▸ .refl [],.nil⟩
    | cons e es =>
      obtain ⟨es',ls',-,-,hperm⟩ := hm.pop h
      simp [← hperm.length_eq] at hn
  | succ n ih =>
    cases es with
    | nil =>
      cases hm.holds
      exact ⟨[],.done rfl,.refl [],.nil⟩
    | cons e es =>
      obtain ⟨es',ls',hpop,hm',hperm⟩ := hm.pop h
      have hlen := hperm.length_eq
      rw [length_cons] at hlen
      obtain ⟨out,hout,hout',hsorted⟩ := ih hm' (by omega)
      have hall := (hout'.cons e.value).trans hperm
      refine ⟨e.value::out,.more hpop hout,hall,pairwise_cons.mpr ⟨fun x hx => ?_,hsorted⟩⟩
      exact hm.first h x (hall.mem_iff.mp (mem_cons_of_mem _ hx))

/-- Reading takes one turn for each element. -/
theorem Yields.drain {fuel : ℕ} {out : List α} (hout : Yields (KWayMerge.pop next less) es out)
    (hfuel : out.length ≤ fuel) : KWayMerge.drain next less fuel es = .ok out := by
  induction fuel generalizing es out with
  | zero =>
    rw [eq_nil_of_length_eq_zero (Nat.le_zero.mp hfuel)]
    rfl
  | succ fuel ih =>
    cases hout with
    | done hpop => rw [KWayMerge.drain,hpop]
    | more hpop hrest =>
      have hlen := Nat.le_of_succ_le_succ hfuel
      rw [KWayMerge.drain,hpop]
      simp only [ih hrest hlen]
      rfl

theorem start_merging (h : StrictWeak less) {streams : List σ}
    (hyields : List.Forall₂ (Yields next) streams ls) (hsorted : ∀ l ∈ ls, Sorted less l) :
    ∃ es ls', start next less streams = .ok es ∧ Merging next less es ls' ∧
      ls'.flatten.Perm ls.flatten := by
  have hentries : ∃ es ls', entries next streams = .ok es ∧ List.Forall₂ (Holds next) es ls' ∧
      (∀ l ∈ ls', Sorted less l) ∧ ls'.flatten = ls.flatten := by
    induction hyields with
    | nil => exact ⟨[],[],rfl,.nil,by simp,rfl⟩
    | @cons s l streams ls hs _ ih =>
      obtain ⟨es,ls',hes,hholds,hsorted',hflat⟩ := ih fun l hl => hsorted l (by simp [hl])
      cases hs with
      | done hnext =>
        refine ⟨es,ls',?_,hholds,hsorted',by simpa using hflat⟩
        rw [entries,hnext]
        exact hes
      | @more _ s' x xs hnext hmore =>
        refine ⟨⟨x,s'⟩::es,(x::xs)::ls',?_,.cons ⟨xs,rfl,hmore⟩ hholds,?_,by simp [hflat]⟩
        · rw [entries,hnext,hes]
          rfl
        · intro l hl
          rcases mem_cons.mp hl with rfl | hl
          · exact hsorted _ mem_cons_self
          · exact hsorted' l hl
  obtain ⟨es,ls',hes,hholds,hsorted',hflat⟩ := hentries
  have hweak := strictWeak_entry (σ := σ) h
  obtain ⟨ls'',hp,hm⟩ := merging_of_perm hholds hsorted' (init_perm hweak es) (heap_init hweak es)
  refine ⟨_,ls'',?_,hm,hflat ▸ hp.flatten⟩
  rw [start,hes]
  rfl

end KWayMerge
