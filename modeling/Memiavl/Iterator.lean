import Memiavl.TreeRun
import Memiavl.SnapshotRoundTrip

/-! The iterator of a tree. It keeps a stack of nodes that still have to be visited and skips
subtrees that lie outside its range. -/
namespace Memiavl

open HeapM List

/-- `bytes.Clone`: the same bytes in a slice of their own; `nil` stays `nil`. -/
def clone (bz : Option Bytes) : Option Bytes := bz.map fun b => [] ++ b

@[simp] theorem clone_eq (bz : Option Bytes) : clone bz = bz := by
  cases bz <;> rfl

/-- Following the nodes below `n` gives the tree `t`. -/
def Reads (h : Heap) : Node → Mixed → Prop
  | n, .leaf key value s => n.IsLeaf h key value s
  | n, .branch height size key s left right => ∃ l r,
    n.IsBranch h height size key s l r ∧ Reads h l left ∧ Reads h r right

theorem Rep.reads {h : Heap} {n : Node} {t : Mixed} {F : Finset ℕ} (ht : Rep h n t F) :
    Reads h n t := by
  induction t generalizing n F with
  | leaf key value s => exact ht.1
  | branch height size key s left right ihl ihr =>
    obtain ⟨l,r,Fl,Fr,hn,hl,hr,-⟩ := ht
    exact ⟨l,r,hn,ihl hl,ihr hr⟩

theorem reads_of_walk {h : Heap} {n : Node} {t : Mixed} {fuel : ℕ} (hw : n.walk h fuel = some t) :
    Reads h n t := by
  induction fuel generalizing n t with
  | zero =>
    cases n with
    | mem a => simp [Node.walk] at hw
    | persisted p => simp [Node.walk,PersistedNode.walk] at hw
  | succ fuel ih =>
    cases n with
    | persisted p =>
      obtain ⟨u,hu,rfl⟩ := Option.map_eq_some_iff.mp hw
      exact (rep_persisted hu).reads
    | mem a =>
      simp only [Node.walk,Option.bind_eq_bind,Option.bind_eq_some_iff] at hw
      obtain ⟨c,hc,hw⟩ := hw
      by_cases h0 : c.height = 0
      · simp only [if_pos h0,Option.bind_eq_some_iff] at hw
        obtain ⟨_,hguard,value,hv,hw⟩ := hw
        obtain rfl := Option.some.inj hw
        have h1 : c.size = 1 := by
          by_contra hne
          simp [guard,hne] at hguard
        exact ⟨c,hc,h0,h1,rfl,hv,rfl⟩
      · simp only [if_neg h0,Option.bind_eq_some_iff] at hw
        obtain ⟨l,hl,r,hr,tl,htl,tr,htr,hw⟩ := hw
        obtain rfl := Option.some.inj hw
        exact ⟨l,r,⟨c,hc,rfl,h0,rfl,rfl,hl,hr,rfl⟩,ih htl,ih htr⟩

/-- The fields `end`, `key` and so on of the code; the top of the stack comes first. -/
structure Iterator where
  start : Option Bytes
  stop : Option Bytes
  ascending : Bool
  zeroCopy : Bool
  key : Option Bytes := none
  value : Option Bytes := none
  valid : Bool := true
  stack : List Node := []

namespace Iterator

/-- Nodes left of the key may be behind the start. -/
def afterStart (it : Iterator) (key : Bytes) : Bool := it.start.all fun start => start < key

/-- Nodes from the key on may be before the end. -/
def beforeEnd (it : Iterator) (key : Bytes) : Bool := it.stop.all fun stop => key < stop

/-- `Next`, with fuel for the loop over the stack. -/
def next : ℕ → Iterator → HeapM MemNode Iterator
  | 0, _ => lift none
  | fuel+1, it =>
    match it.stack with
    | [] => pure { it with valid := false }
    | node::stack => do
      let key ← node.key
      let afterStart := it.afterStart key
      let beforeEnd := it.beforeEnd key
      let isLeaf ← node.isLeaf
      if isLeaf then
        let startOrAfter := afterStart || it.start == some key
        if startOrAfter && beforeEnd then
          let value ← node.value
          pure { it with key := some key, value := value, stack := stack }
        else next fuel { it with stack := stack }
      else if it.ascending then
        let stack ← if beforeEnd then do pure ((← node.right)::stack) else pure stack
        let stack ← if afterStart then do pure ((← node.left)::stack) else pure stack
        next fuel { it with stack := stack }
      else
        let stack ← if afterStart then do pure ((← node.left)::stack) else pure stack
        let stack ← if beforeEnd then do pure ((← node.right)::stack) else pure stack
        next fuel { it with stack := stack }

def newIterator (fuel : ℕ) (start stop : Option Bytes) (ascending : Bool) (root : Option Node)
    (zeroCopy : Bool) : HeapM MemNode Iterator :=
  next fuel { start := start, stop := stop, ascending := ascending, zeroCopy := zeroCopy,
              stack := root.toList }

def getKey (it : Iterator) : Option Bytes := if it.zeroCopy then it.key else clone it.key

def getValue (it : Iterator) : Option Bytes := if it.zeroCopy then it.value else clone it.value

/-- The pairs that a caller sees who calls `Next` until the iterator is not valid. -/
def collect (fuel : ℕ) : ℕ → Iterator → HeapM MemNode (List (Option Bytes × Option Bytes))
  | 0, _ => lift none
  | turns+1, it =>
    if it.valid then do
      let it' ← it.next fuel
      let rest ← collect fuel turns it'
      pure ((it.getKey,it.getValue)::rest)
    else pure []

/-- `start <= key < end`, where a missing bound does not restrict. -/
def InRange (it : Iterator) (key : Bytes) : Bool :=
  it.start.all (fun start => start ≤ key) && it.stop.all fun stop => key < stop

/-- The entries below a node in the direction of the iterator. -/
def entries (it : Iterator) (t : Mixed) : List (Bytes × Bytes) :=
  if it.ascending then t.toList else t.toList.reverse

/-- What the iterator still has to give for the trees on its stack. -/
def pending (it : Iterator) (ts : List Mixed) : List (Bytes × Bytes) :=
  ts.flatMap fun t => (it.entries t).filter fun e => it.InRange e.1

end Iterator

def nodeCount (ts : List Mixed) : ℕ := (ts.map fun t => 2*t.leafCount-1).sum

namespace Iterator

section
variable {h : Heap} {it : Iterator} {node : Node} {stack : List Node} {fuel : ℕ}

def pushed {α : Type} (it : Iterator) (key : Bytes) (l r : α) : List α :=
  let ls := if it.afterStart key then [l] else []
  let rs := if it.beforeEnd key then [r] else []
  if it.ascending then ls ++ rs else rs ++ ls

theorem inRange_eq (it : Iterator) (key : Bytes) : it.InRange key =
    ((it.afterStart key || it.start == some key) && it.beforeEnd key) := by
  unfold InRange afterStart beforeEnd
  congr 1
  cases it.start with
  | none => rfl
  | some start =>
    rw [Bool.eq_iff_iff]
    simp [le_iff_lt_or_eq]

theorem next_leaf {key value : Bytes} {s : Stamp} (hstack : it.stack = node::stack)
    (hn : node.IsLeaf h key value s) : it.next (fuel+1) h =
      if it.InRange key then some ({ it with key := some key, value := some value, stack := stack },h)
      else next fuel { it with stack := stack } h := by
  rw [inRange_eq]
  simp only [next,hstack,run_bind,hn.key_run,hn.isLeaf_run,Option.bind_some,if_true]
  split
  · simp only [run_bind,hn.value_run,Option.bind_some,run_pure]
  · rfl

theorem next_branch {height size : ℕ} {key : Bytes} {s : Stamp} {l r : Node}
    (hstack : it.stack = node::stack) (hn : node.IsBranch h height size key s l r) :
    it.next (fuel+1) h = next fuel { it with stack := it.pushed key l r ++ stack } h := by
  simp only [next,hstack,run_bind,hn.key_run,hn.isLeaf_run,Option.bind_some,Bool.false_eq_true,
    if_false]
  have hl := hn.left_run
  have hr := hn.right_run
  unfold pushed
  cases it.ascending <;> cases it.afterStart key <;> cases it.beforeEnd key <;>
    simp [run_bind,hl,hr]

end

section
variable {it : Iterator} {ts : List Mixed}

@[simp] theorem pending_nil : it.pending [] = [] := rfl

@[simp] theorem pending_cons (t : Mixed) : it.pending (t::ts) =
    ((it.entries t).filter fun e => it.InRange e.1) ++ it.pending ts := rfl

theorem pending_append (ts₁ ts₂ : List Mixed) :
    it.pending (ts₁ ++ ts₂) = it.pending ts₁ ++ it.pending ts₂ := by
  simp [pending]

theorem mem_entries {t : Mixed} {e : Bytes × Bytes} : e ∈ it.entries t ↔ e ∈ t.toList := by
  unfold entries
  split <;> simp

theorem key_mem {t : Mixed} {e : Bytes × Bytes} (he : e ∈ t.toList) : e.1 ∈ t.keys := by
  rw [LeafTree.keys_eq_map_toList]
  exact List.mem_map_of_mem he

/-- A subtree left of a key that is not behind the start has nothing in the range. -/
theorem pending_left {key : Bytes} {t : Mixed} (hafter : it.afterStart key = false)
    (ht : ∀ x ∈ t.keys, x < key) : it.pending [t] = [] := by
  simp only [pending_cons,pending_nil,List.append_nil,filter_eq_nil_iff,mem_entries]
  intro e he hin
  have hlt := ht e.1 (key_mem he)
  cases hs : it.start with
  | none => simp [afterStart,hs] at hafter
  | some start =>
    simp only [afterStart,InRange,hs,Option.all_some,decide_eq_false_iff_not,not_lt,
      Bool.and_eq_true,decide_eq_true_eq] at hafter hin
    exact absurd (hafter.trans hin.1) (not_le.mpr hlt)

theorem pending_right {key : Bytes} {t : Mixed} (hbefore : it.beforeEnd key = false)
    (ht : ∀ x ∈ t.keys, key ≤ x) : it.pending [t] = [] := by
  simp only [pending_cons,pending_nil,List.append_nil,filter_eq_nil_iff,mem_entries]
  intro e he hin
  have hle := ht e.1 (key_mem he)
  cases hs : it.stop with
  | none => simp [beforeEnd,hs] at hbefore
  | some stop =>
    simp only [beforeEnd,InRange,hs,Option.all_some,decide_eq_false_iff_not,not_lt,
      Bool.and_eq_true,decide_eq_true_eq] at hbefore hin
    exact absurd (hin.2.trans_le hbefore) (not_lt.mpr hle)

theorem pending_branch {height size : ℕ} {key : Bytes} {s : Stamp} {left right : Mixed}
    (ht : (LeafTree.branch height size key s left right).Search) :
    it.pending [.branch height size key s left right] = it.pending (it.pushed key left right) := by
  obtain ⟨-,hr,hk,hlt⟩ := ht
  have hls : it.pending (if it.afterStart key then [left] else []) = it.pending [left] := by
    split
    · rfl
    · rename_i ha
      exact (pending_left (by simpa using ha) hlt).symm
  have hrs : it.pending (if it.beforeEnd key then [right] else []) = it.pending [right] := by
    split
    · rfl
    · rename_i hb
      exact (pending_right (by simpa using hb) fun x hx => hk ▸ hr.minKey_le hx).symm
  have hboth : it.pending [.branch height size key s left right] =
      if it.ascending then it.pending [left] ++ it.pending [right]
      else it.pending [right] ++ it.pending [left] := by
    simp only [pending,entries,LeafTree.toList,flatMap_cons,flatMap_nil,List.append_nil]
    split <;> simp
  rw [hboth,pushed]
  split
  · rw [pending_append,hls,hrs]
  · rw [pending_append,hrs,hls]

end

end Iterator

theorem nodeCount_append (ts₁ ts₂ : List Mixed) : nodeCount (ts₁ ++ ts₂) = nodeCount ts₁+nodeCount ts₂ := by
  simp [nodeCount]

namespace Iterator

section
variable {h : Heap} {it : Iterator} {ts : List Mixed} {fuel : ℕ}

/-- The stack stands for these trees. -/
structure Ready (h : Heap) (it : Iterator) (ts : List Mixed) : Prop where
  reads : List.Forall₂ (Reads h) it.stack ts
  search : ∀ t ∈ ts, t.Search

theorem nodeCount_pushed (it : Iterator) (height size : ℕ) (key : Bytes) (s : Stamp)
    (left right : Mixed) :
    nodeCount (it.pushed key left right) < nodeCount [.branch height size key s left right] := by
  have hl := leafCount_pos left
  have hr := leafCount_pos right
  unfold pushed nodeCount
  cases it.ascending <;> cases it.afterStart key <;> cases it.beforeEnd key <;>
    simp [LeafTree.leafCount] <;> omega

theorem forall₂_pushed {key : Bytes} {l r : Node} {left right : Mixed} (hl : Reads h l left)
    (hr : Reads h r right) :
    List.Forall₂ (Reads h) (it.pushed key l r) (it.pushed key left right) := by
  unfold pushed
  cases it.ascending <;> cases it.afterStart key <;> cases it.beforeEnd key <;> simp [hl,hr]

theorem mem_pushed {key : Bytes} {left right t : Mixed} (ht : t ∈ it.pushed key left right) :
    t = left ∨ t = right := by
  unfold pushed at ht
  revert ht
  cases it.ascending <;> cases it.afterStart key <;> cases it.beforeEnd key <;> simp <;> tauto

/-- `Next` stops at the next entry in the range, or finds that there is none. -/
theorem next_spec (hr : it.Ready h ts) (hfuel : nodeCount ts < fuel) :
    (it.pending ts = [] ∧ ∃ it', it.next fuel h = some (it',h) ∧ it'.valid = false) ∨
    ∃ k v stack ts', it.pending ts = (k,v)::it.pending ts' ∧ nodeCount ts' ≤ nodeCount ts ∧
      it.next fuel h = some ({ it with key := some k, value := some v, stack := stack },h) ∧
      Ready h { it with key := some k, value := some v, stack := stack } ts' := by
  -- Each turn of the loop takes one node from the stack.
  induction fuel generalizing it ts with
  | zero => omega
  | succ fuel ih =>
    obtain ⟨hreads,hsearch⟩ := hr
    cases hstack : it.stack with
    | nil =>
      rw [hstack] at hreads
      cases hreads
      exact .inl ⟨rfl,{ it with valid := false },by simp [next,hstack],rfl⟩
    | cons node stack =>
      rw [hstack] at hreads
      obtain ⟨t,ts,hnode,hrest,rfl⟩ := forall₂_cons_left_iff.mp hreads
      have hsearch' : ∀ u ∈ ts, u.Search := fun u hu => hsearch u (mem_cons_of_mem _ hu)
      cases t with
      | leaf key value s =>
        have hcount : nodeCount (.leaf key value s::ts) = 1+nodeCount ts := by
          simp [nodeCount,LeafTree.leafCount]
        have hentries : it.entries (.leaf key value s) = [(key,value)] := by simp [entries,LeafTree.toList]
        rw [next_leaf hstack hnode]
        by_cases hin : it.InRange key = true
        · refine .inr ⟨key,value,stack,ts,?_,by omega,if_pos hin,hrest,hsearch'⟩
          simp [hentries,hin]
        · rw [if_neg hin]
          have hp : it.pending (.leaf key value s::ts) = it.pending ts := by simp [hentries,hin]
          rw [hp]
          rcases @ih { it with stack := stack } ts ⟨hrest,hsearch'⟩ (by omega) with
            hdone | ⟨k,v,stack',ts',hpend,hle,hnext,hready⟩
          · exact .inl hdone
          · exact .inr ⟨k,v,stack',ts',hpend,by omega,hnext,hready⟩
      | branch height size key s left right =>
        obtain ⟨l,r,hn,hleft,hright⟩ := hnode
        have hs := hsearch _ mem_cons_self
        have hp : it.pending (.branch height size key s left right::ts) =
            it.pending (it.pushed key left right ++ ts) := by
          rw [pending_append,← pending_branch hs,← pending_append]
          rfl
        have hlt := nodeCount_pushed it height size key s left right
        have hcons : nodeCount (.branch height size key s left right::ts) =
            nodeCount [.branch height size key s left right]+nodeCount ts := nodeCount_append [_] ts
        have happ := nodeCount_append (it.pushed key left right) ts
        rw [next_branch hstack hn,hp]
        have hready : Ready h { it with stack := it.pushed key l r ++ stack }
            (it.pushed key left right ++ ts) := by
          refine ⟨rel_append (forall₂_pushed hleft hright) hrest,fun t ht => ?_⟩
          rcases mem_append.mp ht with ht | ht
          · rcases mem_pushed ht with rfl | rfl
            · exact hs.1
            · exact hs.2.1
          · exact hsearch' t ht
        rcases ih hready (by omega) with hdone | ⟨k,v,stack',ts',hpend,hle,hnext,hready'⟩
        · exact .inl hdone
        · exact .inr ⟨k,v,stack',ts',hpend,by omega,hnext,hready'⟩

end

def shown (e : Bytes × Bytes) : Option Bytes × Option Bytes := (some e.1,some e.2)

section
variable {h : Heap} {it : Iterator} {ts : List Mixed} {fuel turns : ℕ}

theorem collect_invalid (hvalid : it.valid = false) :
    collect fuel (turns+1) it h = some ([],h) := by
  simp [collect,hvalid]

/-- A valid iterator gives its pair, and then the entries that are left for its stack. -/
theorem collect_spec {k v : Bytes} (hvalid : it.valid = true) (hkey : it.key = some k)
    (hvalue : it.value = some v) (hr : it.Ready h ts) (hfuel : nodeCount ts < fuel)
    (hturns : (it.pending ts).length+1 < turns) :
    collect fuel turns it h = some (((k,v)::it.pending ts).map shown,h) := by
  induction turns generalizing it ts k v with
  | zero => omega
  | succ turns ih =>
    have hpair : (it.getKey,it.getValue) = shown (k,v) := by
      simp [getKey,getValue,hkey,hvalue,shown]
    simp only [collect,hvalid,if_true,run_bind]
    rcases next_spec hr hfuel with ⟨hnone,it',hnext,hdone⟩ | ⟨k',v',stack,ts',hpend,hle,hnext,hready⟩
    · obtain ⟨turns,rfl⟩ : ∃ n, turns = n+1 := ⟨turns-1,by omega⟩
      simp only [hnext,Option.bind_some,collect_invalid hdone,run_pure,hpair,hnone]
      rfl
    · have hlen : (it.pending ts).length = (it.pending ts').length+1 := by rw [hpend]; rfl
      have hrest := @ih { it with key := some k', value := some v', stack := stack } ts' k' v' hvalid
        rfl rfl hready (by omega) (show (it.pending ts').length+1 < turns by omega)
      simp only [hnext,Option.bind_some,hrest,run_pure,hpair,hpend]
      rfl

end

/-- A new iterator, read to its end, gives what its range leaves of the tree. -/
theorem collect_newIterator {h : Heap} {root : Option Node} {ts : List Mixed} {fuel : ℕ}
    (start stop : Option Bytes) (ascending zeroCopy : Bool)
    (hreads : List.Forall₂ (Reads h) root.toList ts) (hsearch : ∀ t ∈ ts, t.Search) :
    let it : Iterator := ⟨start,stop,ascending,zeroCopy,none,none,true,root.toList⟩
    nodeCount ts < fuel → (it.pending ts).length < fuel →
    (newIterator fuel start stop ascending root zeroCopy >>= collect fuel fuel) h =
      some ((it.pending ts).map shown,h) := by
  intro it hfuel hlen
  have hready : it.Ready h ts := ⟨hreads,hsearch⟩
  rw [run_bind]
  change (it.next fuel h).bind _ = _
  obtain ⟨n,rfl⟩ : ∃ n, fuel = n+1 := ⟨fuel-1,by omega⟩
  rcases next_spec hready hfuel with ⟨hnone,it',hnext,hdone⟩ | ⟨k,v,stack,ts',hpend,hle,hnext,hready'⟩
  · rw [hnext,Option.bind_some,collect_invalid hdone,hnone]
    rfl
  · have hshort : (it.pending ts).length = (it.pending ts').length+1 := by rw [hpend]; rfl
    rw [hnext,Option.bind_some]
    rw [collect_spec rfl rfl rfl hready' (by omega) (show (it.pending ts').length+1 < n+1 by omega),hpend]
    rfl

theorem pairwise_entries {it : Iterator} {t : Mixed} (ht : t.Search) :
    (it.entries t).Pairwise fun a b => if it.ascending then a.1 < b.1 else b.1 < a.1 := by
  have hsorted := ht.keys_sorted
  rw [LeafTree.keys_eq_map_toList,pairwise_map] at hsorted
  unfold entries
  cases it.ascending with
  | true => simpa using hsorted
  | false => simpa [pairwise_reverse] using hsorted

end Iterator

theorem Tree.root_of_contents {t : Tree} {h : Heap} {m : Option Mixed} (hm : t.contents h = some m) :
    List.Forall₂ (Reads h) t.root.toList m.toList := by
  unfold Tree.contents at hm
  cases hroot : t.root with
  | none =>
    rw [hroot] at hm
    obtain rfl := Option.some.inj hm
    exact .nil
  | some n =>
    simp only [hroot,Option.bind_eq_bind,Option.bind_eq_some_iff] at hm
    obtain ⟨_,-,u,hu,hm⟩ := hm
    obtain rfl := Option.some.inj hm
    exact .cons (reads_of_walk hu) .nil

def Tree.iterator (t : Tree) (fuel : ℕ) (start stop : Option Bytes) (ascending zeroCopy : Bool) :
    HeapM MemNode Iterator :=
  Iterator.newIterator fuel start stop ascending t.root zeroCopy

/-- On a tree with the invariant, wherever its nodes are kept, the iterator gives exactly the
entries from the start up to the end, each once, in the order of its direction. -/
theorem Tree.iterator_range {t : Tree} {h : Heap} {m : Option Mixed} (hm : t.contents h = some m)
    (havl : ∀ u ∈ m, u.Avl) (start stop : Option Bytes) (ascending zeroCopy : Bool) :
    ∃ out : List (Bytes × Bytes),
      (∃ n, ∀ fuel ≥ n, (t.iterator fuel start stop ascending zeroCopy >>=
        Iterator.collect fuel fuel) h = some (out.map Iterator.shown,h)) ∧
      (∀ e, e ∈ out ↔ (∃ u ∈ m, e ∈ u.toList) ∧ (∀ s ∈ start, s ≤ e.1) ∧ ∀ s ∈ stop, e.1 < s) ∧
      out.Pairwise fun a b => if ascending then a.1 < b.1 else b.1 < a.1 := by
  have hreads := t.root_of_contents hm
  have hsearch : ∀ u ∈ m.toList, u.Search := fun u hu => (havl u (by simpa using hu)).search
  let it : Iterator := ⟨start,stop,ascending,zeroCopy,none,none,true,t.root.toList⟩
  refine ⟨it.pending m.toList,
    ⟨nodeCount m.toList+(it.pending m.toList).length+1,fun fuel hfuel => ?_⟩,fun e => ?_,?_⟩
  · exact Iterator.collect_newIterator start stop ascending zeroCopy hreads hsearch
      (by omega) (show (it.pending m.toList).length < fuel by omega)
  · have hin : it.InRange e.1 = true ↔ (∀ s ∈ start, s ≤ e.1) ∧ ∀ s ∈ stop, e.1 < s := by
      simp only [Iterator.InRange,it,Bool.and_eq_true]
      cases start <;> cases stop <;> simp
    simp only [Iterator.pending,mem_flatMap,mem_filter,Iterator.mem_entries,hin,
      Option.mem_toList]
    tauto
  · cases m with
    | none => exact .nil
    | some u =>
      simp only [Iterator.pending,Option.toList_some,flatMap_cons,flatMap_nil,
        List.append_nil]
      have hsorted : (it.entries u).Pairwise _ := Iterator.pairwise_entries (havl u rfl).search
      exact hsorted.filter _

/-- A branch in memory with one leaf in memory and one leaf of a snapshot. -/
theorem Tree.iterator_range_mixed :
    let i : NodeInfo := ⟨1,emptyHash⟩
    let s := snapshotOf 1 (.leaf [3] [30] i)
    let h : Heap := ⟨[newLeafNode [1] [10] 2,
      { height := 1, size := 2, version := 2, key := [3], left := some (.mem 0),
        right := some (.persisted ⟨s,true,0⟩) }]⟩
    let t : Tree := { version := 1, root := some (.mem 1) }
    let m : Mixed := .branch 1 2 [3] ⟨2,none⟩ (.leaf [1] [10] ⟨2,none⟩) (.leaf [3] [30] i.stamp)
    t.contents h = some (some m) ∧ ∃ out : List (Bytes × Bytes),
      (∃ n, ∀ fuel ≥ n, (t.iterator fuel (some [2]) none false false >>=
        Iterator.collect fuel fuel) h = some (out.map Iterator.shown,h)) ∧
      ∀ e, e ∈ out ↔ e ∈ m.toList ∧ [2] ≤ e.1 := by
  intro i s h t m
  have hm : t.contents h = some (some m) := by decide +kernel
  have havl : ∀ u ∈ some m, u.Avl := by simpa using (by decide : m.Avl)
  obtain ⟨out,hrun,hmem,-⟩ := t.iterator_range hm havl (some [2]) none false false
  exact ⟨hm,out,hrun,fun e => by simpa using hmem e⟩

end Memiavl
