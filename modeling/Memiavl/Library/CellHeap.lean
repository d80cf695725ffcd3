import Mathlib

/-! Programs over a heap of mutable cells. A program either fails or returns a value and
a new heap; `Wp` states that it returns and what holds then. Cells are never freed, so
an address that is in use stays in use. -/

/-- Cells of type `γ`, addressed by their position. -/
structure CellHeap (γ : Type) where
  cells : List γ := []
  deriving DecidableEq

namespace CellHeap

variable {γ : Type}

def size (h : CellHeap γ) : ℕ := h.cells.length

def read (h : CellHeap γ) (a : ℕ) : Option γ := h.cells[a]?

def write (h : CellHeap γ) (a : ℕ) (c : γ) : CellHeap γ := ⟨h.cells.set a c⟩

def push (h : CellHeap γ) (c : γ) : CellHeap γ := ⟨h.cells ++ [c]⟩

@[simp] theorem size_write (h : CellHeap γ) (a : ℕ) (c : γ) : (h.write a c).size = h.size := by
  simp [size,write]

@[simp] theorem size_push (h : CellHeap γ) (c : γ) : (h.push c).size = h.size+1 := by
  simp [size,push]

@[simp] theorem read_push_self (h : CellHeap γ) (c : γ) : (h.push c).read h.size = some c := by
  simp [read,push,size]

variable {h : CellHeap γ} {a : ℕ}

theorem read_write_self {c : γ} (d : γ) (ha : h.read a = some c) :
    (h.write a d).read a = some d := by
  have hlt : a < h.cells.length := (List.getElem?_eq_some_iff.mp ha).1
  simp [read,write,hlt]

theorem read_write_ne {b : ℕ} (c : γ) (hb : b ≠ a) : (h.write a c).read b = h.read b := by
  simp [read,write,hb.symm]

theorem read_lt {c : γ} (ha : h.read a = some c) : a < h.size :=
  (List.getElem?_eq_some_iff.mp ha).1

theorem read_push (c : γ) (ha : a < h.size) : (h.push c).read a = h.read a :=
  List.getElem?_append_left ha

end CellHeap

/-- Programs that read and change the heap and may fail. -/
abbrev HeapM (γ : Type) := StateT (CellHeap γ) Option

section
variable {σ α β : Type}

/-- The program returns, and what it returns satisfies `Q`. -/
def Wp (x : StateT σ Option α) (s : σ) (Q : α → σ → Prop) : Prop :=
  ∃ a s', x s = some (a,s') ∧ Q a s'

@[simp] theorem wp_pure (a : α) (s : σ) (Q : α → σ → Prop) :
    Wp (pure a : StateT σ Option α) s Q ↔ Q a s := by
  simp [Wp,pure,StateT.pure]

theorem Wp.mono {x : StateT σ Option α} {s : σ} {P Q : α → σ → Prop} (hx : Wp x s P)
    (hPQ : ∀ a s', P a s' → Q a s') : Wp x s Q := by
  obtain ⟨a,s',ha,hP⟩ := hx
  exact ⟨a,s',ha,hPQ a s' hP⟩

theorem wp_bind_of {x : StateT σ Option α} {f : α → StateT σ Option β} {s s' : σ} {a : α}
    {Q : β → σ → Prop} (hx : x s = some (a,s')) (hf : Wp (f a) s' Q) : Wp (x >>= f) s Q := by
  obtain ⟨b,s'',hb,hQ⟩ := hf
  refine ⟨b,s'',?_,hQ⟩
  change (x s).bind (fun p => f p.1 p.2) = _
  rw [hx]
  exact hb

theorem Wp.bind {x : StateT σ Option α} {f : α → StateT σ Option β} {s : σ}
    {P : α → σ → Prop} {Q : β → σ → Prop} (hx : Wp x s P)
    (hf : ∀ a s', P a s' → Wp (f a) s' Q) : Wp (x >>= f) s Q := by
  obtain ⟨a,s',ha,hP⟩ := hx
  exact wp_bind_of ha (hf a s' hP)

end

namespace HeapM

variable {γ α : Type}

/-- Go on with a value that may be missing. -/
def lift (x : Option α) : HeapM γ α := fun h => x.map fun a => (a,h)

def load (a : ℕ) : HeapM γ γ := fun h => (h.read a).map fun c => (c,h)

def alloc (c : γ) : HeapM γ ℕ := fun h => some (h.size,h.push c)

/-- Change the cell at an address in place. -/
def modify (a : ℕ) (f : γ → γ) : HeapM γ Unit := fun h =>
  (h.read a).map fun c => ((),h.write a (f c))

theorem run_bind {β : Type} (x : HeapM γ α) (f : α → HeapM γ β) (h : CellHeap γ) :
    (x >>= f) h = (x h).bind fun p => f p.1 p.2 := rfl

@[simp] theorem run_pure (a : α) (h : CellHeap γ) : (pure a : HeapM γ α) h = some (a,h) := rfl

@[simp] theorem lift_some (a : α) (h : CellHeap γ) : (lift (some a) : HeapM γ α) h = some (a,h) := rfl

theorem load_of {h : CellHeap γ} {a : ℕ} {c : γ} (ha : h.read a = some c) :
    (load a : HeapM γ γ) h = some (c,h) := by
  simp [load,ha]

theorem modify_of {h : CellHeap γ} {a : ℕ} {c : γ} (f : γ → γ) (ha : h.read a = some c) :
    (modify a f : HeapM γ Unit) h = some ((),h.write a (f c)) := by
  simp [modify,ha]

end HeapM

def CellHeap.All {γ : Type} (C : γ → Prop) (h : CellHeap γ) : Prop := ∀ a c, h.read a = some c → C c

/-- If the program returns, the cells still have the property, and what it returns satisfies `Q`. -/
def Maintains {γ α : Type} (C : γ → Prop) (x : HeapM γ α) (Q : α → Prop) : Prop :=
  ∀ h a h', h.All C → x h = some (a,h') → h'.All C ∧ Q a

namespace Maintains

open HeapM

variable {γ α β : Type} {C : γ → Prop} {P Q : α → Prop}

theorem pure {a : α} (ha : Q a) : Maintains C (pure a : HeapM γ α) Q := by
  intro h b h' hh hr
  simp only [run_pure,Option.some.injEq,Prod.mk.injEq] at hr
  obtain ⟨rfl,rfl⟩ := hr
  exact ⟨hh,ha⟩

theorem bind {x : HeapM γ α} {f : α → HeapM γ β} {R : β → Prop} (hx : Maintains C x P)
    (hf : ∀ a, P a → Maintains C (f a) R) : Maintains C (x >>= f) R := by
  intro h b h'' hh hr
  rw [run_bind,Option.bind_eq_some_iff] at hr
  obtain ⟨⟨a,h'⟩,ha,hr⟩ := hr
  obtain ⟨hh',hP⟩ := hx h a h' hh ha
  exact hf a hP h' b h'' hh' hr

theorem lift {x : Option α} (hx : ∀ a, x = some a → Q a) : Maintains C (HeapM.lift x) Q := by
  intro h a h' hh hr
  obtain ⟨b,hb,hba⟩ := Option.map_eq_some_iff.mp hr
  obtain ⟨rfl,rfl⟩ := Prod.mk.inj hba
  exact ⟨hh,hx b hb⟩

theorem lift_any {x : Option α} : Maintains C (HeapM.lift x) fun _ => True := lift fun _ _ => trivial

theorem fail : Maintains C (HeapM.lift none) Q := lift fun _ h => (nomatch h)

theorem ite {p : Prop} [Decidable p] {x y : HeapM γ α} (hx : p → Maintains C x Q)
    (hy : ¬ p → Maintains C y Q) : Maintains C (if p then x else y) Q := by
  split
  · exact hx ‹_›
  · exact hy ‹_›

theorem load (a : ℕ) : Maintains C (HeapM.load a) C := by
  intro h c h' hh hr
  obtain ⟨d,hd,hdc⟩ := Option.map_eq_some_iff.mp hr
  obtain ⟨rfl,rfl⟩ := Prod.mk.inj hdc
  exact ⟨hh,hh a d hd⟩

theorem alloc {c : γ} (hc : C c) : Maintains C (HeapM.alloc c) fun _ => True := by
  intro h a h' hh hr
  obtain ⟨rfl,rfl⟩ := Prod.mk.inj (Option.some.inj hr)
  refine ⟨fun b d hd => ?_,trivial⟩
  rcases Nat.lt_or_ge b h.size with hb | hb
  · exact hh b d (by rwa [CellHeap.read_push c hb] at hd)
  · have hlt := CellHeap.read_lt hd
    rw [CellHeap.size_push] at hlt
    obtain rfl : b = h.size := by omega
    rw [CellHeap.read_push_self] at hd
    exact Option.some.inj hd ▸ hc

theorem modify (a : ℕ) {f : γ → γ} (hf : ∀ c, C c → C (f c)) :
    Maintains C (HeapM.modify a f) fun _ => True := by
  intro h u h' hh hr
  obtain ⟨c,hc,hca⟩ := Option.map_eq_some_iff.mp hr
  obtain ⟨-,rfl⟩ := Prod.mk.inj hca
  refine ⟨fun b d hd => ?_,trivial⟩
  by_cases hba : b = a
  · subst hba
    rw [CellHeap.read_write_self _ hc] at hd
    exact Option.some.inj hd ▸ hf c (hh b c hc)
  · rw [CellHeap.read_write_ne _ hba] at hd
    exact hh b d hd

theorem wp {x : HeapM γ α} {h : CellHeap γ} {P : α → CellHeap γ → Prop} (hx : Maintains C x Q)
    (hh : h.All C) (hP : Wp x h P) : Wp x h fun a h' => P a h' ∧ h'.All C ∧ Q a := by
  obtain ⟨a,h',hr,hP⟩ := hP
  exact ⟨a,h',hr,hP,hx h a h' hh hr⟩

end Maintains
