import Memiavl.Export
import Memiavl.VersionDbMap

/-! Restoring versiondb from the snapshot stream of some trees. The stream has all nodes of a tree
in post-order, and a branch is written like a leaf without a value: it comes after the leaf with
its key, so what is left of that entry is an empty value. Only the smallest key of a tree is not
the key of a branch. -/
namespace Memiavl

open TimedMap LeafTree List

/-- `readSnapshotEntries`: the entries that are sent, and the error that is returned. The error
for a missing store name wraps one that is nil, so it is nil as well. -/
def readSnapshotEntries (storeKey : Bytes) : List SnapshotItem → List ImportEntry × Option String
  | [] => ([],none)
  | .invalid err::_ => ([],some s!"invalid protobuf message: {err}")
  | .store name::items => readSnapshotEntries name items
  | .iavl key value _ height::items =>
    if storeKey = [] then ([],none)
    else if height > maxInt8 then
      ([],some s!"node height {height} cannot exceed {maxInt8}")
    else
      let (entries,err) := readSnapshotEntries storeKey items
      (⟨storeKey,key,value⟩::entries,err)
  | .extension::_ => ([],none)

/-- `restore-versiondb`: an error of the reader is only logged. -/
def restoreVersionDB (s : VersionStore) (height : Int64) (items : List SnapshotItem) :
    VersionStore :=
  s.importEntries height (readSnapshotEntries [] items).1

namespace StoreTree

def entries (t : StoreTree) : List (Bytes × Bytes) :=
  match t.root with
  | none => []
  | some r => r.toList

def lookup (t : StoreTree) (key : Bytes) : Option Bytes := t.entries.lookup key

end StoreTree

/-- Reads of the stores at the height agree with the trees. -/
def StateRestored (trees : List LoadedTree) (height : Int64) (s : VersionStore) : Prop :=
  ∀ t ∈ trees, ∀ key, s.getAtVersion t.name key (some height) = t.tree.lookup key

/-- Restoring the stream of the trees gives their state. If the stream breaks off at an item that
cannot be read, the latest version is not set. -/
def RestorePreserves (trees : List LoadedTree) (height : Int64) (failure : Option (ℕ × String)) :
    Prop :=
  ∃ items, snapshotStream trees = .ok items ∧
    match failure with
    | none => StateRestored trees height (restoreVersionDB {} height items)
    | some (i,err) => (restoreVersionDB {} height (items.take i ++ [.invalid err])).latestVersion ≠
        some height.toUInt64

/-- The last value that is written for a key. -/
def lastValue (nodes : List ExportNode) (key : Bytes) : Option Bytes :=
  ((nodes.filter fun n => n.key = key).getLast?).map ExportNode.value

theorem lastValue_append (xs ys : List ExportNode) (key : Bytes) :
    lastValue (xs ++ ys) key = (lastValue ys key).or (lastValue xs key) := by
  rw [lastValue,filter_append,getLast?_append,lastValue,lastValue]
  cases (ys.filter fun n => n.key = key).getLast? <;> rfl

theorem lookup_eq_none_iff (t : Contents) (key : Bytes) :
    t.toList.lookup key = none ↔ key ∉ t.keys := by
  rw [keys_eq_map_toList,List.lookup_eq_none_iff]
  constructor
  · rintro h hmem
    obtain ⟨p,hp,rfl⟩ := List.mem_map.mp hmem
    simpa using h p hp
  · intro h p hp
    simpa using fun hk => h (List.mem_map.mpr ⟨p,hp,hk.symm⟩)

/-- The smallest key keeps its value, and the other ones get an empty value from their branch. -/
theorem lastValue_exported {t : Contents} (ht : t.Search) (key : Bytes) :
    lastValue (Contents.exported t) key =
      if key = t.minKey then t.toList.lookup key else (t.toList.lookup key).map fun _ => [] := by
  induction t with
  | leaf k v a =>
    by_cases hk : key = k
    · subst hk
      simp [lastValue,Contents.exported,Contents.exportNode,LeafTree.toList]
    · have hk' : ¬k = key := fun h => hk h.symm
      have hbeq : (key == k) = false := by simpa using hk
      simp [lastValue,Contents.exported,Contents.exportNode,LeafTree.toList,lookup_cons,hk,hk',
        hbeq]
  | branch h s k a l r ihl ihr =>
    obtain ⟨hl,hr,hk,hlt⟩ := ht
    rw [Contents.exported,lastValue_append,lastValue_append,ihl hl,ihr hr,LeafTree.toList,
      lookup_append,LeafTree.minKey_branch]
    have hleft : ∀ x, k ≤ x → l.toList.lookup x = none ∧ x ≠ l.minKey := fun x hx =>
      ⟨(lookup_eq_none_iff l x).mpr fun h => absurd (hlt x h) (not_lt.mpr hx),
        (lt_of_lt_of_le (hlt _ l.minKey_mem_keys) hx).ne'⟩
    by_cases hkey : key = k
    · subst hkey
      have hlast : lastValue [Contents.exportNode (.branch h s key a l r)] key = some [] := by
        simp [lastValue,Contents.exportNode]
      obtain ⟨hnone,hne⟩ := hleft key le_rfl
      obtain ⟨v,hv⟩ := Option.ne_none_iff_exists'.mp
        fun h => (lookup_eq_none_iff r key).mp h (hk ▸ r.minKey_mem_keys)
      simp [hlast,hne,hnone,hv]
    · have hlast : lastValue [Contents.exportNode (.branch h s k a l r)] key = none := by
        have hkey' : ¬k = key := fun h => hkey h.symm
        simp [lastValue,Contents.exportNode,hkey']
      rw [hlast,Option.none_or,← hk,if_neg hkey]
      cases hr' : r.toList.lookup key with
      | none => simp
      | some v =>
        have hmem : key ∈ r.keys := not_not.mp fun h => by
          rw [(lookup_eq_none_iff r key).mpr h] at hr'
          cases hr'
        obtain ⟨hnone,hne⟩ := hleft key (hk ▸ hr.minKey_le hmem)
        simp [hne,hnone]

/-- All values but the first one are empty. -/
def StoreTree.OthersEmpty (t : StoreTree) : Prop := ∀ e ∈ t.entries.tail, e.2 = []

theorem head_toList (t : Contents) : ∃ v, t.toList.head? = some (t.minKey,v) := by
  induction t with
  | leaf k v a => exact ⟨v,rfl⟩
  | branch h s k a l r ihl ihr =>
    obtain ⟨v,hv⟩ := ihl
    exact ⟨v,by rw [LeafTree.toList,head?_append,hv]; rfl⟩

theorem lookup_of_mem {l : List (Bytes × Bytes)} (hl : (l.map Prod.fst).Pairwise (· < ·))
    {e : Bytes × Bytes} (he : e ∈ l) : l.lookup e.1 = some e.2 := by
  induction l with
  | nil => cases he
  | cons x l ih =>
    obtain ⟨hx,hl⟩ := pairwise_cons.mp hl
    rcases mem_cons.mp he with rfl | he
    · rw [lookup_cons,beq_self_eq_true]
    · have hne : (e.1 == x.1) = false := by
        simpa using (hx e.1 (List.mem_map_of_mem he)).ne'
      rw [lookup_cons,hne]
      exact ih hl he

theorem mem_of_lookup {l : List (Bytes × Bytes)} {key value : Bytes}
    (h : l.lookup key = some value) : (key,value) ∈ l := by
  obtain ⟨l₁,l₂,rfl,-⟩ := lookup_eq_some_iff.mp h
  simp

/-- What is left is the tree exactly if only its first value is not empty. -/
theorem lastValue_eq_lookup_iff {t : StoreTree} (ht : t.Avl) :
    (∀ key, lastValue t.exported key = t.lookup key) ↔ t.OthersEmpty := by
  rw [StoreTree.OthersEmpty]
  simp only [StoreTree.lookup,StoreTree.exported,StoreTree.entries]
  cases hroot : t.root with
  | none => simp [lastValue]
  | some r =>
    have hsearch := (ht r hroot).search
    have hsorted := hsearch.keys_sorted
    rw [keys_eq_map_toList] at hsorted
    obtain ⟨v,hhead⟩ := head_toList r
    obtain ⟨es,hes⟩ : ∃ es, r.toList = (r.minKey,v)::es := by
      cases hl : r.toList with
      | nil => simp [hl] at hhead
      | cons e es =>
        rw [hl] at hhead
        cases hhead
        exact ⟨es,rfl⟩
    have hne : ∀ e ∈ es, e.1 ≠ r.minKey := by
      intro e he
      rw [hes,map_cons] at hsorted
      exact ((pairwise_cons.mp hsorted).1 e.1 (List.mem_map_of_mem he)).ne'
    simp only [lastValue_exported hsearch]
    constructor
    · intro h e he
      rw [hes,tail_cons] at he
      have hlook := lookup_of_mem hsorted (hes ▸ mem_cons_of_mem _ he)
      have hkey := h e.1
      rw [if_neg (hne e he),hlook] at hkey
      exact (Option.some.inj hkey).symm
    · intro h key
      split
      · rfl
      · rename_i hkey
        cases hlook : r.toList.lookup key with
        | none => rfl
        | some value =>
          have hmem := mem_of_lookup hlook
          rw [hes] at hmem
          rcases mem_cons.mp hmem with heq | hmem
          · exact absurd (congrArg Prod.fst heq) hkey
          · have hempty := h (key,value) (by rw [hes]; exact hmem)
            rw [Option.map_some]
            exact congrArg some hempty.symm

def ExportNode.entry (storeKey : Bytes) (n : ExportNode) : ImportEntry := ⟨storeKey,n.key,n.value⟩

theorem toInt8_le (x : ℤ) : toInt8 x ≤ maxInt8 := by
  have h := Int.bmod_lt (x := x) (m := 2^8) (by decide)
  simp only [toInt8,maxInt8]
  omega

theorem height_exported_le {t : Contents} {n : ExportNode} (h : n ∈ Contents.exported t) :
    n.height ≤ maxInt8 := by
  induction t with
  | leaf k v a =>
    rw [mem_singleton.mp h,Contents.exportNode]
    simp [maxInt8]
  | branch height size k a l r ihl ihr =>
    simp only [Contents.exported,mem_append,mem_singleton] at h
    rcases h with (h | h) | rfl
    · exact ihl h
    · exact ihr h
    · have hle := toInt8_le (height : ℤ)
      simpa only [Contents.exportNode] using hle

theorem readSnapshotEntries_nodes {storeKey : Bytes} (hname : storeKey ≠ [])
    {nodes : List ExportNode} (hnodes : ∀ n ∈ nodes, n.height ≤ maxInt8)
    (items : List SnapshotItem) :
    (readSnapshotEntries storeKey (nodes.map ExportNode.item ++ items)).1 =
      nodes.map (ExportNode.entry storeKey) ++ (readSnapshotEntries storeKey items).1 := by
  induction nodes with
  | nil => rfl
  | cons n nodes ih =>
    have hn : ¬n.height > maxInt8 := not_lt.mpr (hnodes n (by simp))
    simp only [map_cons,cons_append,ExportNode.item,readSnapshotEntries,if_neg hname,
      if_neg hn]
    rw [ih fun n hn => hnodes n (by simp [hn])]
    rfl

/-- The entries of all trees, if those without a name have no nodes. -/
theorem readSnapshotEntries_trees {trees : List LoadedTree}
    (h : ∀ t ∈ trees, t.name = [] → t.tree.root = none) (storeKey : Bytes) :
    (readSnapshotEntries storeKey (trees.flatMap LoadedTree.items)).1 =
      trees.flatMap fun t => t.tree.exported.map (ExportNode.entry t.name) := by
  induction trees generalizing storeKey with
  | nil => rfl
  | cons t trees ih =>
    have ih := ih (fun t' ht' => h t' (by simp [ht'])) t.name
    simp only [flatMap_cons,LoadedTree.items,cons_append,readSnapshotEntries]
    by_cases hname : t.name = []
    · have hnil : t.tree.exported = [] := by
        rw [StoreTree.exported,h t (by simp) hname]
      rw [hnil,map_nil,nil_append,ih]
      rfl
    · rw [readSnapshotEntries_nodes hname,ih]
      intro n hn
      rw [StoreTree.exported] at hn
      cases hroot : t.tree.root with
      | none => simp [hroot] at hn
      | some r =>
        rw [hroot] at hn
        exact height_exported_le hn

theorem storeKey_readSnapshotEntries {storeKey : Bytes} {items : List SnapshotItem}
    {e : ImportEntry} (h : e ∈ (readSnapshotEntries storeKey items).1) :
    e.storeKey ≠ [] ∧ (e.storeKey = storeKey ∨ .store e.storeKey ∈ items) := by
  induction items generalizing storeKey with
  | nil => cases h
  | cons item items ih =>
    cases item with
    | store name =>
      obtain ⟨hne,hor⟩ := ih h
      refine ⟨hne,.inr ?_⟩
      rcases hor with heq | hmem
      · simp [heq]
      · simp [hmem]
    | iavl key value version height =>
      simp only [readSnapshotEntries] at h
      split_ifs at h with hname hheight
      · cases h
      · cases h
      · rcases mem_cons.mp h with rfl | h
        · exact ⟨hname,.inl rfl⟩
        · obtain ⟨hne,hor⟩ := ih h
          exact ⟨hne,hor.imp_right fun hmem => by simp [hmem]⟩
    | extension => cases h
    | invalid err => cases h

theorem filter_entries {trees : List LoadedTree} (hnodup : (trees.map LoadedTree.name).Nodup)
    {t : LoadedTree} (ht : t ∈ trees) :
    (trees.flatMap fun t => t.tree.exported.map (ExportNode.entry t.name)).filter
      (fun e => e.storeKey = t.name) = t.tree.exported.map (ExportNode.entry t.name) := by
  induction trees with
  | nil => cases ht
  | cons t' trees ih =>
    obtain ⟨hnot,hnodup⟩ := nodup_cons.mp hnodup
    rw [flatMap_cons,filter_append]
    have hother : ∀ t'' : LoadedTree, t''.name ≠ t.name →
        (t''.tree.exported.map (ExportNode.entry t''.name)).filter
          (fun e => e.storeKey = t.name) = [] := by
      intro t'' hne
      simp [filter_eq_nil_iff,ExportNode.entry,hne]
    rcases mem_cons.mp ht with rfl | ht
    · have hrest : (trees.flatMap fun t => t.tree.exported.map (ExportNode.entry t.name)).filter
          (fun e => e.storeKey = t.name) = [] := by
        rw [List.filter_flatMap,flatMap_eq_nil_iff]
        intro t'' ht''
        exact hother t'' fun h => hnot (List.mem_map.mpr ⟨t'',ht'',h⟩)
      rw [hrest,List.append_nil,filter_eq_self]
      simp [ExportNode.entry]
    · rw [ih hnodup ht,hother t' fun h => hnot (List.mem_map.mpr ⟨t,ht,h.symm⟩),nil_append]

/-- A read at the height gives the last entry of the key. -/
theorem getAtVersion_importEntries {entries : List ImportEntry} {store : Bytes}
    (hnames : ∀ e ∈ entries, 47 ∉ e.storeKey) (hstore : 47 ∉ store) (height : Int64) (key : Bytes) :
    (VersionStore.importEntries {} height entries).getAtVersion store key (some height) =
      (((entries.filter fun e => e.storeKey = store).filter fun e => e.key = key).getLast?).map
        ImportEntry.value := by
  have hwrites : ∀ w ∈ [VersionStore.Call.importEntries height entries].flatMap
      VersionStore.Call.writes, 47 ∉ w.1 := by
    simpa [VersionStore.Call.writes] using hnames
  have hget : (VersionStore.run {} [.importEntries height entries]).getAtVersion store key
      (some height) = VersionStore.mapAt [.importEntries height entries] false store (some height)
        key := VersionStore.getAtVersion_run hwrites hstore key
  have hwritesOf : VersionStore.writesOf store [.importEntries height entries] =
      (entries.filter fun e => e.storeKey = store).map
        fun e => ⟨e.key,height.toUInt64,some e.value⟩ := by
    simp [VersionStore.writesOf,VersionStore.Call.writes,List.filter_map,Function.comp_def]
  have htime : ∀ w ∈ VersionStore.writesOf store [.importEntries height entries],
      w.time = height.toUInt64 := by
    rw [hwritesOf]
    intro w hw
    obtain ⟨e,-,rfl⟩ := List.mem_map.mp hw
    rfl
  refine hget.trans ?_
  rw [VersionStore.mapAt,readTimestamp,stateAt_of_one_time htime,hwritesOf,List.filter_map,
    getLast?_map]
  have hsame : ∀ p : ImportEntry → Bool, (∀ e, p e = decide (e.key = key)) →
      (entries.filter fun e => e.storeKey = store).filter p =
        (entries.filter fun e => e.storeKey = store).filter fun e => e.key = key :=
    fun p hp => List.filter_congr fun e _ => hp e
  rw [hsame]
  · generalize ((entries.filter fun e => e.storeKey = store).filter
      fun e => e.key = key).getLast? = o
    cases o <;> simp
  · intro e
    simp

section
variable {trees : List LoadedTree} (hnodup : (trees.map LoadedTree.name).Nodup)
  (hnames : ∀ t ∈ trees, 47 ∉ t.name)

include hnames in
theorem slash_readSnapshotEntries :
    ∀ e ∈ (readSnapshotEntries [] (trees.flatMap LoadedTree.items)).1, 47 ∉ e.storeKey := by
  intro e he
  obtain ⟨hne,hempty | hmem⟩ := storeKey_readSnapshotEntries he
  · exact absurd hempty hne
  · obtain ⟨t,ht,hitem⟩ := mem_flatMap.mp hmem
    rcases mem_cons.mp hitem with heq | hnode
    · have hname : e.storeKey = t.name := SnapshotItem.store.inj heq
      exact hname ▸ hnames t ht
    · obtain ⟨n,-,heq⟩ := List.mem_map.mp hnode
      cases heq

include hnodup hnames in
/-- What is read of a tree after its nodes were imported. -/
theorem getAtVersion_restoreVersionDB (hempty : ∀ t ∈ trees, t.name = [] → t.tree.root = none)
    (height : Int64) {t : LoadedTree} (ht : t ∈ trees) (key : Bytes) :
    (restoreVersionDB {} height (trees.flatMap LoadedTree.items)).getAtVersion t.name key
      (some height) = lastValue t.tree.exported key := by
  have hslash := slash_readSnapshotEntries hnames
  rw [restoreVersionDB,getAtVersion_importEntries hslash (hnames t ht),
    readSnapshotEntries_trees hempty,filter_entries hnodup ht,List.filter_map,getLast?_map,
    lastValue,Option.map_map]
  rfl

include hnames in
/-- A store without a name is not restored. -/
theorem getAtVersion_nameless (height : Int64) (key : Bytes) :
    (restoreVersionDB {} height (trees.flatMap LoadedTree.items)).getAtVersion [] key
      (some height) = none := by
  have hnone : (readSnapshotEntries [] (trees.flatMap LoadedTree.items)).1.filter
      (fun e => e.storeKey = []) = [] := by
    rw [filter_eq_nil_iff]
    intro e he
    simpa using (storeKey_readSnapshotEntries he).1
  rw [restoreVersionDB,getAtVersion_importEntries (slash_readSnapshotEntries hnames) (by simp),hnone]
  rfl

include hnodup hnames in
theorem stateRestored_iff (height : Int64) :
    StateRestored trees height (restoreVersionDB {} height (trees.flatMap LoadedTree.items)) ↔
      ∀ t ∈ trees, (t.name = [] → t.tree.root = none) ∧ t.tree.OthersEmpty := by
  constructor
  · intro h
    have hempty : ∀ t ∈ trees, t.name = [] → t.tree.root = none := by
      intro t ht hname
      cases hroot : t.tree.root with
      | none => rfl
      | some r =>
        have hread := h t ht r.minKey
        rw [hname,getAtVersion_nameless hnames] at hread
        have hlook : t.tree.lookup r.minKey = r.toList.lookup r.minKey := by
          rw [StoreTree.lookup,StoreTree.entries,hroot]
        exact absurd r.minKey_mem_keys
          ((lookup_eq_none_iff r r.minKey).mp (hlook.symm.trans hread.symm))
    refine fun t ht => ⟨hempty t ht,(lastValue_eq_lookup_iff t.avl).mp fun key => ?_⟩
    rw [← getAtVersion_restoreVersionDB hnodup hnames hempty height ht]
    exact h t ht key
  · intro h t ht key
    rw [getAtVersion_restoreVersionDB hnodup hnames (fun t ht => (h t ht).1) height ht]
    exact (lastValue_eq_lookup_iff t.avl).mpr (h t ht).2 key

/-- Restoring versiondb from the stream of some trees preserves their state exactly if the whole
stream is read, a tree without a name has no nodes, and only the smallest key of a tree has a
value that is not empty. An error while reading does not keep the latest version from being
set. -/
theorem restorePreserves_iff (trees : List LoadedTree)
    (hnodup : (trees.map LoadedTree.name).Nodup) (hnames : ∀ t ∈ trees, 47 ∉ t.name)
    (height : Int64) (failure : Option (ℕ × String)) :
    RestorePreserves trees height failure ↔ failure = none ∧
      ∀ t ∈ trees, (t.name = [] → t.tree.root = none) ∧ t.tree.OthersEmpty := by
  rw [RestorePreserves,snapshotStream_eq]
  cases failure with
  | none => simp [stateRestored_iff hnodup hnames height]
  | some f => simp [restoreVersionDB,VersionStore.importEntries,VersionStore.setLatestVersion]

end

def twoEntries (value : Bytes) : LoadedTree where
  name := [97]
  tree := ⟨1,some (.branch 1 2 [2] 1 (.leaf [1] [7] 1) (.leaf [2] value 1))⟩
  avl := by
    intro r hr
    cases hr
    exact ⟨⟨trivial,trivial,rfl,by decide⟩,⟨trivial,trivial,by simp⟩⟩
  loaded := by simp

theorem restorePreserves_empty_value :
    RestorePreserves [twoEntries []] 5 none := by
  refine (restorePreserves_iff [twoEntries []] (by decide) (by decide) 5 none).mpr ⟨rfl,?_⟩
  intro t ht
  rw [mem_singleton.mp ht]
  exact ⟨by decide,fun e he => by cases he with | head => rfl | tail _ h => cases h⟩

/-- The branch above the two leaves overwrites the entry of the second one. -/
theorem restore_loses_value : ¬RestorePreserves [twoEntries [8]] 5 none ∧
    ∃ items, snapshotStream [twoEntries [8]] = .ok items ∧
      (restoreVersionDB {} 5 items).getAtVersion [97] [2] (some 5) = some [] ∧
      (twoEntries [8]).tree.lookup [2] = some [8] := by
  have hread : (restoreVersionDB {} 5 ([twoEntries [8]].flatMap LoadedTree.items)).getAtVersion
      [97] [2] (some 5) = some [] := by decide +kernel
  refine ⟨?_,_,snapshotStream_eq _,hread,by decide⟩
  rintro ⟨items,hitems,hrestored⟩
  rw [snapshotStream_eq] at hitems
  cases hitems
  have h := hrestored (twoEntries [8]) (by simp) [2]
  exact absurd (hread.symm.trans h) (by decide)

end Memiavl
