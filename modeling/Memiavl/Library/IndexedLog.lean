import Mathlib.Data.List.Basic
import Mathlib.Data.Nat.Notation

/-! A write-ahead log whose entries have consecutive indices. Entries are appended in
batches; both ends can be cut. -/

/-- Entries at the indices from `base+1` on. -/
structure IndexedLog (α : Type) where
  base : ℕ := 0
  entries : List α := []
  deriving DecidableEq

namespace IndexedLog

variable {α : Type} {l l' l'' : IndexedLog α}

def lastIndex (l : IndexedLog α) : ℕ := l.base+l.entries.length

def read (l : IndexedLog α) (i : ℕ) : Option α :=
  if l.base < i then l.entries[i-l.base-1]? else none

def append (l : IndexedLog α) (xs : List α) : IndexedLog α := { l with entries := l.entries ++ xs }

/-- Appends a batch of numbered entries. A batch that does not go on right after the last
entry is refused as a whole. -/
def writeBatch (l : IndexedLog α) (batch : List (ℕ × α)) : Option (IndexedLog α) :=
  if batch.map Prod.fst = List.range' (l.lastIndex+1) batch.length then
    some (l.append (batch.map Prod.snd))
  else none

/-- Whether an end of the log can be cut at `i`. -/
def InRange (l : IndexedLog α) (i : ℕ) : Prop := l.base < i ∧ i ≤ l.lastIndex

instance (l : IndexedLog α) (i : ℕ) : Decidable (l.InRange i) := by
  unfold InRange
  infer_instance

def dropFront (l : IndexedLog α) (k : ℕ) : IndexedLog α := ⟨l.base+k,l.entries.drop k⟩

/-- Removes the entries before index `i`. -/
def truncateFront (l : IndexedLog α) (i : ℕ) : Option (IndexedLog α) :=
  if l.InRange i then some (l.dropFront (i-l.base-1)) else none

/-- Removes the entries after index `i`. -/
def truncateBack (l : IndexedLog α) (i : ℕ) : Option (IndexedLog α) :=
  if l.InRange i then some { l with entries := l.entries.take (i-l.base) } else none

/-- What is left when only the first `keep` entries reached the disk. -/
def cut (l : IndexedLog α) (keep : ℕ) : IndexedLog α := { l with entries := l.entries.take keep }

theorem inRange_of_read {i : ℕ} {x : α} (h : l.read i = some x) : l.InRange i := by
  unfold read at h
  split at h
  · rename_i hb
    obtain ⟨hlt,-⟩ := List.getElem?_eq_some_iff.mp h
    refine ⟨hb,?_⟩
    rw [lastIndex]
    omega
  · cases h

@[simp] theorem append_base (l : IndexedLog α) (xs : List α) : (l.append xs).base = l.base := rfl

@[simp] theorem append_nil (l : IndexedLog α) : l.append [] = l := by
  simp [append]

@[simp] theorem append_append (l : IndexedLog α) (xs ys : List α) :
    (l.append xs).append ys = l.append (xs ++ ys) := by
  simp [append]

@[simp] theorem lastIndex_append (l : IndexedLog α) (xs : List α) :
    (l.append xs).lastIndex = l.lastIndex+xs.length := by
  simp [append,lastIndex,Nat.add_assoc]

theorem read_append {i : ℕ} {x : α} (h : l.read i = some x) (xs : List α) :
    (l.append xs).read i = some x := by
  unfold read at h ⊢
  rw [Option.ite_none_right_eq_some] at h
  obtain ⟨hb,h⟩ := h
  obtain ⟨hlt,-⟩ := List.getElem?_eq_some_iff.mp h
  rw [append_base,if_pos hb]
  exact (List.getElem?_append_left hlt).trans h

theorem writeBatch_eq_some {batch : List (ℕ × α)} : l.writeBatch batch = some l' ↔
    batch.map Prod.fst = List.range' (l.lastIndex+1) batch.length ∧
      l' = l.append (batch.map Prod.snd) := by
  unfold writeBatch
  split
  · simp_all [eq_comm]
  · simp_all

theorem truncateFront_eq_some {i : ℕ} : l.truncateFront i = some l' ↔
    l.InRange i ∧ l' = l.dropFront (i-l.base-1) := by
  unfold truncateFront
  split
  · simp_all [eq_comm]
  · simp_all

/-- The log ends at the index, and has what it had up to there. -/
theorem truncateBack_eq_some {i : ℕ} (h : l.truncateBack i = some l') :
    l.InRange i ∧ l'.lastIndex = i ∧ ∀ k ≤ i, l'.read k = l.read k := by
  unfold truncateBack at h
  split at h
  · rename_i hi
    cases h
    obtain ⟨hb,hl⟩ := hi
    rw [lastIndex] at hl
    refine ⟨⟨hb,hl⟩,?_,fun k hk => ?_⟩
    · simp only [lastIndex,List.length_take]
      omega
    · simp only [read]
      split
      · exact List.getElem?_take_of_lt (by omega)
      · rfl
  · cases h

/-- `l` is what is left of `l'` after some entries at the front were removed. -/
def TruncationOf (l l' : IndexedLog α) : Prop := ∃ k ≤ l'.entries.length, l = l'.dropFront k

namespace TruncationOf

theorem refl (l : IndexedLog α) : l.TruncationOf l := ⟨0,by simp,by simp [dropFront]⟩

theorem lastIndex_eq (h : l.TruncationOf l') : l.lastIndex = l'.lastIndex := by
  obtain ⟨k,hk,rfl⟩ := h
  simp only [lastIndex,dropFront,List.length_drop]
  omega

theorem trans (h : l.TruncationOf l') (hh : l'.TruncationOf l'') : l.TruncationOf l'' := by
  obtain ⟨k,hk,rfl⟩ := h
  obtain ⟨n,hn,rfl⟩ := hh
  simp only [dropFront,List.length_drop] at hk ⊢
  exact ⟨n+k,by omega,by simp [dropFront,Nat.add_assoc]⟩

theorem append (h : l.TruncationOf l') (xs : List α) :
    (l.append xs).TruncationOf (l'.append xs) := by
  obtain ⟨k,hk,rfl⟩ := h
  refine ⟨k,by simp only [IndexedLog.append,List.length_append]; omega,?_⟩
  simp [IndexedLog.append,dropFront,List.drop_append_of_le_length hk]

/-- Both logs give the same entry at an index that was not removed. -/
theorem read_eq (h : l.TruncationOf l') {i : ℕ} (hi : l.base < i) : l.read i = l'.read i := by
  obtain ⟨k,hk,rfl⟩ := h
  simp only [dropFront] at hi
  simp only [read,dropFront,hi,if_true,if_pos (show l'.base < i by omega),List.getElem?_drop]
  congr 1
  omega

end TruncationOf

theorem truncationOf_truncateFront {i : ℕ} (h : l.truncateFront i = some l') :
    l'.TruncationOf l := by
  obtain ⟨⟨hb,hl⟩,rfl⟩ := truncateFront_eq_some.mp h
  simp only [lastIndex] at hl
  exact ⟨_,by omega,rfl⟩

end IndexedLog
