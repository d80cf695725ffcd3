import Mathlib.Data.List.Basic
import Mathlib.Data.Int.Notation

/-! Caches of the values of a map, by the laws that a user of a cache relies on. What a lookup in the
cache finds is what the cached map says, as long as every write to the map goes to the cache as
well. -/

/-- A cache of values by key. Which entries it keeps, and for how long, is left open. -/
structure ValueCache (κ ν : Type) where
  State : Type
  new : ℤ → State
  get : State → κ → Option ν × State
  add : State → κ → ν → State
  remove : State → κ → State
  /-- The cache has this entry. -/
  Has : State → κ → ν → Prop
  has_new : ∀ n k v, ¬Has (new n) k v
  has_of_get : ∀ c k v, (get c k).1 = some v → Has c k v
  has_get : ∀ c key k v, Has (get c key).2 k v → Has c k v
  has_add : ∀ c key value k v, Has (add c key value) k v → k = key ∧ v = value ∨ k ≠ key ∧ Has c k v
  has_remove : ∀ c key k v, Has (remove c key) k v → k ≠ key ∧ Has c k v

namespace ValueCache

open List

variable {κ ν : Type} {C : ValueCache κ ν}

/-- Every entry is an entry of the map. -/
def Agrees (c : C.State) (m : κ → Option ν) : Prop := ∀ k v, C.Has c k v → m k = some v

theorem agrees_new (n : ℤ) (m : κ → Option ν) : Agrees (C.new n) m :=
  fun k v h => absurd h (C.has_new n k v)

variable {c : C.State} {m m' : κ → Option ν} {key : κ} {value : ν}

theorem Agrees.add (hc : Agrees c m) (hkey : m' key = some value)
    (hother : ∀ k, k ≠ key → m' k = m k) : Agrees (C.add c key value) m' := by
  intro k v h
  obtain ⟨rfl,rfl⟩ | ⟨hne,h⟩ := C.has_add c key value k v h
  · exact hkey
  · rw [hother _ hne]
    exact hc k v h

theorem Agrees.remove (hc : Agrees c m) (hother : ∀ k, k ≠ key → m' k = m k) :
    Agrees (C.remove c key) m' := by
  intro k v h
  obtain ⟨hne,h⟩ := C.has_remove c key k v h
  rw [hother _ hne]
  exact hc k v h

theorem Agrees.get (hc : Agrees c m) (key : κ) :
    Agrees (C.get c key).2 m ∧ ∀ v, (C.get c key).1 = some v → m key = some v :=
  ⟨fun k v h => hc k v (C.has_get c key k v h),fun v h => hc key v (C.has_of_get c key v h)⟩

section
variable [DecidableEq κ]

/-- The entry in front of all others. -/
def pushFront (key : κ) (value : ν) (l : List (κ × ν)) : List (κ × ν) :=
  (key,value) :: l.filter fun e => decide (e.1 ≠ key)

theorem mem_pushFront {l : List (κ × ν)} {e : κ × ν} (h : e ∈ pushFront key value l) :
    e = (key,value) ∨ e.1 ≠ key ∧ e ∈ l := by
  simpa only [pushFront,mem_cons,mem_filter,decide_eq_true_eq,and_comm] using h

theorem mem_of_find {l : List (κ × ν)} {e : κ × ν} (h : l.find? (fun e => e.1 = key) = some e) :
    (key,e.2) ∈ l := by
  have hkey : e.1 = key := of_decide_eq_true (find?_some h :)
  rw [← hkey]
  exact mem_of_find?_eq_some h

/-- A bounded number of entries, of which the one used least recently is dropped. -/
def lru : ValueCache κ ν where
  State := ℤ × List (κ × ν)
  new n := (n,[])
  get c key :=
    match c.2.find? fun e => e.1 = key with
    | none => (none,c)
    | some e => (some e.2,c.1,pushFront key e.2 c.2)
  add c key value :=
    let entries := pushFront key value c.2
    (c.1,if c.1 < entries.length then entries.dropLast else entries)
  remove c key := (c.1,c.2.filter fun e => decide (e.1 ≠ key))
  Has c k v := (k,v) ∈ c.2
  has_new := by simp
  has_of_get c key v h := by
    cases hfind : c.2.find? fun e => e.1 = key with
    | none => simp [hfind] at h
    | some e =>
      simp only [hfind,Option.some.injEq] at h
      exact h ▸ mem_of_find hfind
  has_get c key k v h := by
    cases hfind : c.2.find? fun e => e.1 = key with
    | none => simpa [hfind] using h
    | some e =>
      simp only [hfind] at h
      rcases mem_pushFront h with heq | ⟨-,h⟩
      · rw [heq]
        exact mem_of_find hfind
      · exact h
  has_add c key value k v h := by
    have hmem : (k,v) ∈ pushFront key value c.2 := by
      simp only at h
      split at h
      · exact dropLast_subset _ h
      · exact h
    simpa using mem_pushFront hmem
  has_remove c key k v h := by
    simpa [mem_filter,and_comm] using h

end

end ValueCache
