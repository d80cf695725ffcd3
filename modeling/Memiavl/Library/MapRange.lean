import Mathlib.Data.Finmap
import Memiavl.Library.KeyedList

/-! Loops over the keys of a finite map in an order that is not fixed, and what the order
cannot change: the map after a loop that changes each value by itself, and what a loop gathers
once it has been sorted by key. -/
namespace MapRange

open List

variable {κ α β ν : Type}

/-- An order in which a loop may take some keys. -/
structure Order (s : Finset κ) where
  keys : List κ
  nodup : keys.Nodup
  mem_iff : ∀ k, k ∈ keys ↔ k ∈ s

variable [DecidableEq κ]

/-- The value of one key changes. -/
def adjust (m : Finmap fun _ : κ => α) (k : κ) (f : α → α) : Finmap fun _ : κ => α :=
  match m.lookup k with
  | none => m
  | some a => m.insert k (f a)

theorem lookup_adjust (m : Finmap fun _ : κ => α) (k k' : κ) (f : α → α) :
    (adjust m k f).lookup k' = if k' = k then (m.lookup k').map f else m.lookup k' := by
  rw [adjust]
  by_cases hk : k' = k
  · subst hk
    cases h : m.lookup k' with
    | none => simp [h]
    | some a => simp
  · cases h : m.lookup k with
    | none => simp [hk]
    | some a => simp [hk,Finmap.lookup_insert_of_ne m hk]

@[simp] theorem keys_adjust (m : Finmap fun _ : κ => α) (k : κ) (f : α → α) :
    (adjust m k f).keys = m.keys := by
  ext k'
  have hsome : ((adjust m k f).lookup k').isSome = (m.lookup k').isSome := by
    rw [lookup_adjust]
    split <;> simp
  rw [Finmap.mem_keys,Finmap.mem_keys,← Finmap.lookup_isSome,← Finmap.lookup_isSome,hsome]

def adjustAll (f : κ → α → α) (keys : List κ) (m : Finmap fun _ : κ => α) :
    Finmap fun _ : κ => α :=
  keys.foldl (fun m k => adjust m k (f k)) m

theorem lookup_adjustAll {f : κ → α → α} {keys : List κ} (hnodup : keys.Nodup)
    (m : Finmap fun _ : κ => α) (k : κ) :
    (adjustAll f keys m).lookup k = if k ∈ keys then (m.lookup k).map (f k) else m.lookup k := by
  induction keys generalizing m with
  | nil => simp [adjustAll]
  | cons k' keys ih =>
    obtain ⟨hk',hnodup⟩ := nodup_cons.mp hnodup
    have hstep : adjustAll f (k'::keys) m = adjustAll f keys (adjust m k' (f k')) := rfl
    rw [hstep,ih hnodup,lookup_adjust]
    by_cases hk : k = k'
    · subst hk
      simp [hk']
    · simp [hk]

@[simp] theorem keys_adjustAll (f : κ → α → α) (keys : List κ) (m : Finmap fun _ : κ => α) :
    (adjustAll f keys m).keys = m.keys := by
  induction keys generalizing m with
  | nil => rfl
  | cons k keys ih =>
    have hstep : adjustAll f (k::keys) m = adjustAll f keys (adjust m k (f k)) := rfl
    rw [hstep,ih,keys_adjust]

/-- The map after such a loop does not depend on the order. -/
theorem adjustAll_congr (f : κ → α → α) {s : Finset κ} (o o' : Order s)
    (m : Finmap fun _ : κ => α) : adjustAll f o.keys m = adjustAll f o'.keys m := by
  refine Finmap.ext_lookup fun k => ?_
  simp only [lookup_adjustAll o.nodup,lookup_adjustAll o'.nodup,o.mem_iff,o'.mem_iff]

/-- What there is to take at a key. -/
def taken (take : κ → α → List β) (m : Finmap fun _ : κ => α) (k : κ) : List β :=
  ((m.lookup k).map (take k)).getD []

theorem taken_adjust (take : κ → α → List β) (m : Finmap fun _ : κ => α) {k k' : κ} (hk : k' ≠ k)
    (f : α → α) : taken take (adjust m k f) k' = taken take m k' := by
  rw [taken,lookup_adjust,if_neg hk,taken]

/-- A loop that takes something at each key it comes to and changes the value there. -/
def drain (take : κ → α → List β) (f : κ → α → α) :
    List κ → (Finmap fun _ : κ => α) → List β → List β × Finmap fun _ : κ => α
  | [],m,acc => (acc,m)
  | k::keys,m,acc =>
    match m.lookup k with
    | none => drain take f keys m acc
    | some a => drain take f keys (m.insert k (f k a)) (acc ++ take k a)

theorem drain_cons (take : κ → α → List β) (f : κ → α → α) (k : κ) (keys : List κ)
    (m : Finmap fun _ : κ => α) (acc : List β) :
    drain take f (k::keys) m acc =
      drain take f keys (adjust m k (f k)) (acc ++ taken take m k) := by
  cases h : m.lookup k <;> simp [drain,adjust,taken,h]

theorem drain_eq (take : κ → α → List β) (f : κ → α → α) {keys : List κ} (hnodup : keys.Nodup)
    (m : Finmap fun _ : κ => α) (acc : List β) :
    drain take f keys m acc = (acc ++ keys.flatMap (taken take m),adjustAll f keys m) := by
  induction keys generalizing m acc with
  | nil => simp [drain,adjustAll]
  | cons k keys ih =>
    obtain ⟨hk,hnodup⟩ := nodup_cons.mp hnodup
    have hrest : keys.flatMap (taken take (adjust m k (f k))) = keys.flatMap (taken take m) :=
      flatMap_congr fun k' hk' => taken_adjust take m (ne_of_mem_of_not_mem hk' hk) (f k)
    rw [drain_cons,ih hnodup,hrest,flatMap_cons,append_assoc]
    rfl

section
variable {key : β → ν} {name : κ → ν} {g : κ → List β} {s : Finset κ}

/-- What a loop gathers at a key has the name of that key, and no two keys where it gathers
something have the same name. -/
structure Named (key : β → ν) (name : κ → ν) (g : κ → List β) (s : Finset κ) : Prop where
  named : ∀ k ∈ s, ∀ x ∈ g k, key x = name k
  inj : ∀ k ∈ s, ∀ k' ∈ s, g k ≠ [] → g k' ≠ [] → name k = name k' → k = k'

variable [DecidableEq ν]

/-- Under a name that no other key has stands what was gathered at its key, in its order. -/
theorem Named.filter_flatMap (h : Named key name g s) {keys : List κ} (hnodup : keys.Nodup)
    (hs : ∀ k ∈ keys, k ∈ s) {k : κ} (hk : ∀ k' ∈ s, g k' ≠ [] → name k' = name k → k' = k) :
    (keys.flatMap g).filter (key · = name k) = if k ∈ keys then g k else [] := by
  induction keys with
  | nil => simp
  | cons k' keys ih =>
    obtain ⟨hk',hnodup⟩ := nodup_cons.mp hnodup
    obtain ⟨hs',hs⟩ := forall_mem_cons.mp hs
    rw [flatMap_cons,filter_append,ih hnodup hs]
    by_cases hkk : k' = k
    · subst hkk
      have hall : (g k').filter (key · = name k') = g k' :=
        filter_eq_self.mpr fun x hx => by simpa using h.named k' hs' x hx
      rw [hall,if_neg hk',if_pos mem_cons_self,List.append_nil]
    · have hnone : (g k').filter (key · = name k) = [] := by
        refine filter_eq_nil_iff.mpr fun x hx hn => hkk (hk k' hs' (ne_nil_of_mem hx) ?_)
        exact (h.named k' hs' x hx).symm.trans (by simpa using hn)
      simp [hnone,Ne.symm hkk]

theorem Named.filter_order (h : Named key name g s) (o : Order s) {k : κ} (hmem : k ∈ s)
    (hk : ∀ k' ∈ s, g k' ≠ [] → name k' = name k → k' = k) :
    (o.keys.flatMap g).filter (key · = name k) = g k := by
  rw [h.filter_flatMap o.nodup (fun k => (o.mem_iff k).mp) hk,if_pos ((o.mem_iff k).mpr hmem)]

/-- What stands under a name does not depend on the order. -/
theorem Named.filter_congr (h : Named key name g s) (o o' : Order s) (n : ν) :
    (o.keys.flatMap g).filter (key · = n) = (o'.keys.flatMap g).filter (key · = n) := by
  by_cases hn : ∃ k ∈ s, g k ≠ [] ∧ name k = n
  · obtain ⟨k,hk,hg,rfl⟩ := hn
    have hk' : ∀ k' ∈ s, g k' ≠ [] → name k' = name k → k' = k := fun k' hm hg' =>
      h.inj k' hm k hk hg' hg
    rw [h.filter_order o hk hk',h.filter_order o' hk hk']
  · have hnil : ∀ o : Order s, (o.keys.flatMap g).filter (key · = n) = [] := by
      intro o
      refine filter_eq_nil_iff.mpr fun x hx hxn => hn ?_
      obtain ⟨k,hk,hx⟩ := mem_flatMap.mp hx
      have hk := (o.mem_iff k).mp hk
      exact ⟨k,hk,ne_nil_of_mem hx,(h.named k hk x hx).symm.trans (by simpa using hxn)⟩
    rw [hnil o,hnil o']

end

section
variable [LinearOrder ν] {key : β → ν} {name : κ → ν} {g : κ → List β} {s : Finset κ}

/-- What is gathered does not depend on the order once it is sorted by name, also behind
things that were there before. -/
theorem Named.sorted_congr (h : Named key name g s) (o o' : Order s) (l : List β) :
    (l ++ o.keys.flatMap g).insertionSort (fun a b => key a ≤ key b) =
      (l ++ o'.keys.flatMap g).insertionSort fun a b => key a ≤ key b :=
  KeyedList.insertionSort_eq_of_filter fun n => by
    rw [filter_append,filter_append,h.filter_congr o o' n]

/-- Sorted, what was gathered at a key is there under its name, in its order. -/
theorem Named.filter_sorted (h : Named key name g s) (o : Order s) {k : κ} (hmem : k ∈ s)
    (hk : ∀ k' ∈ s, g k' ≠ [] → name k' = name k → k' = k) :
    ((o.keys.flatMap g).insertionSort fun a b => key a ≤ key b).filter (key · = name k) = g k := by
  rw [KeyedList.filter_insertionSort,h.filter_order o hmem hk]

end

end MapRange
