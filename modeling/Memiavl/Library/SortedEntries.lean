import Mathlib.Data.Finmap
import Mathlib.Data.Finset.Sort

/-! The entries of a finite map in the order of their keys, and maps built from lists of entries. -/
namespace SortedEntries

variable {α β : Type}

section
variable [DecidableEq α]

def insertAll (l : List (α × β)) (m : Finmap fun _ : α => β) : Finmap fun _ : α => β :=
  l.foldl (fun m e => m.insert e.1 e.2) m

/-- Of several entries with one key the last one is found; `R` tells which that is. -/
theorem lookup_insertAll {R : β → β → Prop} (hR : ∀ b b', R b b' → ¬R b' b) {l : List (α × β)}
    (hl : l.Pairwise fun e f => e.1 = f.1 → R e.2 f.2) {m : Finmap fun _ : α => β} {a : α} {b : β} :
    (insertAll l m).lookup a = some b ↔ ((a,b) ∈ l ∧ ∀ b', R b b' → (a,b') ∉ l) ∨
      (∀ b', (a,b') ∉ l) ∧ m.lookup a = some b := by
  induction l generalizing m with
  | nil => simp [insertAll]
  | cons e l ih =>
    obtain ⟨hhead,hl⟩ := List.pairwise_cons.mp hl
    rw [insertAll,List.foldl_cons,← insertAll,ih hl]
    obtain ⟨k,v⟩ := e
    by_cases hk : a = k
    · subst hk
      have hlater : ∀ b', (a,b') ∈ l → R v b' := fun b' hb' => hhead (a,b') hb' rfl
      simp only [Finmap.lookup_insert,Option.some.injEq,List.mem_cons,Prod.mk.injEq,true_and]
      grind
    · simp [Finmap.lookup_insert_of_ne _ hk,hk]

end

variable [LinearOrder α] [DecidableEq α]

def entries (m : Finmap fun _ : α => β) : List (α × β) :=
  (m.keys.sort (· ≤ ·)).filterMap fun a => (m.lookup a).map fun b => (a,b)

@[simp]
theorem mem_entries {m : Finmap fun _ : α => β} {a : α} {b : β} :
    (a,b) ∈ entries m ↔ m.lookup a = some b := by
  have hkey : m.lookup a = some b → a ∈ m := Finmap.mem_of_lookup_eq_some
  simp only [entries,List.mem_filterMap,Finset.mem_sort,Finmap.mem_keys,Option.map_eq_some_iff,
    Prod.mk.injEq]
  grind

theorem pairwise_entries (m : Finmap fun _ : α => β) : (entries m).Pairwise fun e f => e.1 < f.1 := by
  refine List.Pairwise.filterMap _ ?_ (Finset.sortedLT_sort m.keys).pairwise
  intro a a' hlt e he f hf
  obtain ⟨b,-,rfl⟩ := Option.map_eq_some_iff.mp he
  obtain ⟨b',-,rfl⟩ := Option.map_eq_some_iff.mp hf
  exact hlt

theorem insertAll_entries (m : Finmap fun _ : α => β) : insertAll (entries m) ∅ = m := by
  refine Finmap.ext_lookup fun a => Option.ext fun b => ?_
  rw [lookup_insertAll (R := fun _ _ => False) (by simp)
    ((pairwise_entries m).imp fun hlt heq => hlt.ne heq)]
  simp

end SortedEntries
