import Memiavl.ExtSort
import Memiavl.VersionDbMap
import Memiavl.Library.Fallible

/-! Building SST files from the change sets of a store: the pairs are encoded for the external
sorter, come out ordered by key and version, and are written to files that are split between
different keys. The size of a file and the order of equal items in a sort are up to the
runtime. -/
namespace Memiavl

open Bytes TimedMap KWayMerge MinHeap Fallible List

abbrev KVRecord := Record Bytes UInt64 Bytes

/-- `encodeSorterItem`: the key, the version, the delete flag with the value, and the length of
the key in four bytes. -/
def encodeSorterItem (version : UInt64) (pair : KVPair) : Bytes :=
  pair.key ++ putLE 8 version.toNat ++ (if pair.delete then [1] else 0::pair.value) ++
    putLE 4 pair.key.length

namespace SorterItem

def keyLen (item : Bytes) : ℕ := getLE (item.drop (item.length-4))

def key (item : Bytes) : Bytes := item.take (keyLen item)

def version (item : Bytes) : UInt64 := .ofNat (getLE ((item.drop (keyLen item)).take 8))

end SorterItem

open SorterItem

def decodeSorterItem (item : Bytes) : UInt64 × KVPair :=
  let offset := keyLen item+8
  let delete := item.getD offset 0 == 1
  let value := if delete then [] else (item.take (item.length-4)).drop (offset+1)
  (version item,⟨delete,key item,value⟩)

def compareSorterItem (a b : Bytes) : Bool :=
  if key a = key b then version b < version a else key a < key b

/-- The sorter and the writer of SST files, by the records of the file in work. Records are added
in strict order, and a file without records cannot be finished. -/
structure SstRuntime extends Runtime compareSorterItem where
  fileSize : List KVRecord → ℕ
  /-- `PutWithTS` or `DeleteWithTS`. -/
  add : List KVRecord → KVRecord → Except String (List KVRecord)
  add_eq_ok : ∀ {file file' r}, add file r = .ok file' ↔
    (∀ x ∈ file.getLast?, Before x r) ∧ file ++ [r] = file'
  finish : List KVRecord → Except String (List KVRecord)
  finish_eq_ok : ∀ {file file'}, finish file = .ok file' ↔ file ≠ [] ∧ file = file'

def recordOfItem (pre item : Bytes) : KVRecord :=
  let (ts,pair) := decodeSorterItem item
  ⟨pre ++ pair.key,ts,if pair.delete then none else some pair.value⟩

/-- The loop over the sorted items, with the last key and the file in work. -/
def writeSstFiles (rt : SstRuntime) (sstFileSize : ℕ) (pre : Bytes) :
    Bytes → List KVRecord → List Bytes → Except String (List (List KVRecord))
  | _,file,[] => (rt.finish file).map ([·])
  | lastKey,file,item::items =>
    let pair := (decodeSorterItem item).2
    if rt.fileSize file ≥ sstFileSize ∧ lastKey ≠ pair.key then do
      let done ← rt.finish file
      let file ← rt.add [] (recordOfItem pre item)
      let files ← writeSstFiles rt sstFileSize pre pair.key file items
      .ok (done::files)
    else do
      let file ← rt.add file (recordOfItem pre item)
      writeSstFiles rt sstFileSize pre pair.key file items

/-- The change sets of a file, with their versions. -/
abbrev ChangeSetFile := List (Int64 × ChangeSet)

def readFirstVersion (file : ChangeSetFile) : UInt64 := (file.head?.map fun p => p.1.toUInt64).getD 0

/-- `scanChangeSetFiles`: the files that are not empty, by their first versions. -/
def scanChangeSetFiles (files : List ChangeSetFile) : List ChangeSetFile :=
  (files.filter (· ≠ [])).mergeSort fun a b => readFirstVersion a ≤ readFirstVersion b

def convertSingleStore (rt : SstRuntime) (store : Bytes) (files : List ChangeSetFile)
    (sstFileSize : ℕ) (sorterChunkSize : ℤ) : Outcome (List (List KVRecord)) :=
  let csFiles := scanChangeSetFiles files
  let items := csFiles.flatten.flatMap fun (version,changeSet) =>
    changeSet.map (encodeSorterItem version.toUInt64)
  if items = [] then .ok []
  else
    (ExtSorter.spawn ⟨true,sorterChunkSize,compareSorterItem⟩ rt.toRuntime items).bind fun sorted =>
      .ofExcept (writeSstFiles rt sstFileSize (storePrefix store) [] [] sorted)

theorem keyLen_append {pair : KVPair} (hkey : pair.key.length < 2^32) (front : Bytes) :
    keyLen (front ++ putLE 4 pair.key.length) = pair.key.length := by
  rw [keyLen,length_append,length_putLE,Nat.add_sub_cancel,drop_left,getLE_putLE,
    show 256^4 = 2^32 by rfl,Nat.mod_eq_of_lt hkey]

section
variable {pair : KVPair} (hkey : pair.key.length < 2^32) (v : UInt64)

include hkey in
theorem keyLen_encode : keyLen (encodeSorterItem v pair) = pair.key.length := keyLen_append hkey _

include hkey in
theorem key_encode : key (encodeSorterItem v pair) = pair.key := by
  rw [key,keyLen_encode hkey,encodeSorterItem]
  simp only [append_assoc,take_left]

include hkey in
theorem version_encode : version (encodeSorterItem v pair) = v := by
  rw [version,keyLen_encode hkey,encodeSorterItem]
  simp only [append_assoc,drop_left]
  rw [take_left' (by simp),getLE_putLE,show 256^8 = 2^64 by rfl,Nat.mod_eq_of_lt v.toNat_lt,
    UInt64.ofNat_toNat]

include hkey in
/-- An item gives back its timestamp and its pair; a deletion has no value. -/
theorem decode_encode : decodeSorterItem (encodeSorterItem v pair) =
    (v,⟨pair.delete,pair.key,if pair.delete then [] else pair.value⟩) := by
  have hfront : (encodeSorterItem v pair).take ((encodeSorterItem v pair).length-4) =
      pair.key ++ putLE 8 v.toNat ++ (if pair.delete then [1] else 0::pair.value) := by
    rw [encodeSorterItem,length_append,length_putLE,Nat.add_sub_cancel,take_left]
  have hflag : (encodeSorterItem v pair).getD (pair.key.length+8) 0 = if pair.delete then 1 else 0 := by
    rw [encodeSorterItem]
    cases pair.delete <;> simp
  rw [decodeSorterItem]
  simp only [keyLen_encode hkey,key_encode hkey,version_encode hkey,hfront,hflag]
  cases pair.delete with
  | true => simp
  | false =>
    have hvalue : (pair.key ++ putLE 8 v.toNat ++ 0::pair.value).drop (pair.key.length+8+1) =
        pair.value := by
      rw [append_cons,drop_left' (by simp)]
    simpa using hvalue

end

theorem compareSorterItem_iff (a b : Bytes) : compareSorterItem a b = true ↔
    key a < key b ∨ key a = key b ∧ version b < version a := by
  rw [compareSorterItem]
  split
  · rename_i h
    simp [h]
  · rename_i h
    simp [h]

theorem strictWeak_compareSorterItem : StrictWeak compareSorterItem := by
  constructor
  · intro a b h
    rw [← Bool.not_eq_true,compareSorterItem_iff]
    rcases (compareSorterItem_iff a b).mp h with h | ⟨h,hv⟩
    · rintro (h' | ⟨h',-⟩)
      · exact lt_asymm h h'
      · exact h.ne' h'
    · rintro (h' | ⟨-,hv'⟩)
      · exact h'.ne' h
      · exact lt_asymm hv hv'
  · intro a b c hba hcb
    rw [← Bool.not_eq_true,compareSorterItem_iff,not_or,not_and,not_lt,not_lt] at hba hcb ⊢
    refine ⟨hba.1.trans hcb.1,fun hca => ?_⟩
    have hab : key b = key a := le_antisymm (hcb.1.trans_eq hca) hba.1
    exact (hcb.2 (hca.trans hab.symm)).trans (hba.2 hab)

theorem key_le_of_before {a b : KVRecord} (h : Before a b) : a.key ≤ b.key :=
  h.elim le_of_lt fun h => h.1.le

/-- A record whose key is not that of the last one before it has a larger key than all of them. -/
theorem key_lt_of_last {file rest : List KVRecord} {r x : KVRecord}
    (hsorted : (file ++ x::rest).Pairwise Before) (hr : r ∈ file)
    (hne : ∀ y ∈ file.getLast?, y.key ≠ x.key) : r.key < x.key := by
  obtain ⟨front,y,hfile⟩ := (eq_nil_or_concat file).resolve_left (ne_nil_of_mem hr)
  rw [concat_eq_append] at hfile
  subst hfile
  obtain ⟨hfile,-,hacross⟩ := pairwise_append.mp hsorted
  have hyx : y.key < x.key :=
    lt_of_le_of_ne (key_le_of_before (hacross y (by simp) x (by simp))) (hne y (by simp))
  rcases mem_append.mp hr with hr | hr
  · have hry := (pairwise_append.mp hfile).2.2 r hr y (by simp)
    exact (key_le_of_before hry).trans_lt hyx
  · rwa [mem_singleton.mp hr]

/-- The keys of each file come before those of the later ones. -/
def KeysApart (files : List (List KVRecord)) : Prop :=
  files.Pairwise fun f g => ∀ r ∈ f, ∀ r' ∈ g, r.key < r'.key

section
variable {rt : SstRuntime} {sstFileSize : ℕ} {pre : Bytes}

/-- The files have the records in their order, and are split between different keys. -/
theorem writeSstFiles_spec {items : List Bytes} {lastKey : Bytes} {file : List KVRecord}
    {files : List (List KVRecord)}
    (hsorted : (file ++ items.map (recordOfItem pre)).Pairwise Before)
    (hlast : ∀ x ∈ file.getLast?, x.key = pre ++ lastKey)
    (h : writeSstFiles rt sstFileSize pre lastKey file items = .ok files) :
    files.flatten = file ++ items.map (recordOfItem pre) ∧ KeysApart files := by
  induction items generalizing lastKey file files with
  | nil =>
    obtain ⟨done,hdone,h⟩ := Fallible.map_eq_ok.mp h
    obtain ⟨-,rfl⟩ := rt.finish_eq_ok.mp hdone
    subst h
    exact ⟨by simp,pairwise_singleton ..⟩
  | cons item items ih =>
    have hkey : (recordOfItem pre item).key = pre ++ (decodeSorterItem item).2.key := rfl
    rw [map_cons] at hsorted ⊢
    rw [writeSstFiles] at h
    split at h
    · -- The file in work ends in front of a new key.
      rename_i hsplit
      obtain ⟨done,hdone,h₁⟩ := bind_eq_ok.mp h
      obtain ⟨file',hadd,h₂⟩ := bind_eq_ok.mp h₁
      obtain ⟨files',hfiles,h₃⟩ := bind_eq_ok.mp h₂
      obtain ⟨-,rfl⟩ := rt.finish_eq_ok.mp hdone
      obtain ⟨-,rfl⟩ := rt.add_eq_ok.mp hadd
      obtain rfl := Except.ok.inj h₃
      obtain ⟨-,hrest,hacross⟩ := pairwise_append.mp hsorted
      have hstart : ∀ x ∈ ([] ++ [recordOfItem pre item]).getLast?,
          x.key = pre ++ (decodeSorterItem item).2.key := by simp [hkey]
      obtain ⟨hflat,hapart⟩ := ih (by simpa using hrest) hstart hfiles
      refine ⟨by simp [hflat],pairwise_cons.mpr ⟨fun g hg r hr r' hr' => ?_,hapart⟩⟩
      have hr' : r' ∈ recordOfItem pre item::items.map (recordOfItem pre) := by
        have hmem := mem_flatten.mpr ⟨g,hg,hr'⟩
        rwa [hflat] at hmem
      have hlt : r.key < (recordOfItem pre item).key :=
        key_lt_of_last hsorted hr fun x hx => by
          rw [hlast x hx,hkey]
          exact fun heq => hsplit.2 (append_cancel_left heq)
      rcases mem_cons.mp hr' with rfl | hr'
      · exact hlt
      · exact hlt.trans_le (key_le_of_before ((pairwise_cons.mp hrest).1 r' hr'))
    · obtain ⟨file',hadd,h⟩ := bind_eq_ok.mp h
      obtain ⟨-,rfl⟩ := rt.add_eq_ok.mp hadd
      have hgrown : ∀ x ∈ (file ++ [recordOfItem pre item]).getLast?,
          x.key = pre ++ (decodeSorterItem item).2.key := by simp [hkey]
      have hrest := ih (by simpa using hsorted) hgrown h
      simpa using hrest

/-- Nothing is refused, as long as an empty file is not too large already. -/
theorem writeSstFiles_ok (hsize : rt.fileSize [] < sstFileSize) {items : List Bytes} {lastKey : Bytes}
    {file : List KVRecord} (hsorted : (file ++ items.map (recordOfItem pre)).Pairwise Before)
    (hne : items ≠ [] ∨ file ≠ []) :
    ∃ files, writeSstFiles rt sstFileSize pre lastKey file items = .ok files := by
  induction items generalizing lastKey file with
  | nil =>
    have hfile : file ≠ [] := hne.resolve_left fun h => h rfl
    refine ⟨[file],?_⟩
    rw [writeSstFiles,rt.finish_eq_ok.mpr ⟨hfile,rfl⟩]
    rfl
  | cons item items ih =>
    rw [map_cons] at hsorted
    obtain ⟨-,hrest,hacross⟩ := pairwise_append.mp hsorted
    rw [writeSstFiles]
    split
    · rename_i hsplit
      have hfile : file ≠ [] := by
        rintro rfl
        exact absurd hsplit.1 (not_le.mpr hsize)
      have hadd : rt.add [] (recordOfItem pre item) = .ok [recordOfItem pre item] :=
        rt.add_eq_ok.mpr ⟨by simp,rfl⟩
      obtain ⟨files,hfiles⟩ := @ih (decodeSorterItem item).2.key [recordOfItem pre item]
        (by simpa using hrest) (.inr (by simp))
      refine ⟨file::files,?_⟩
      rw [rt.finish_eq_ok.mpr ⟨hfile,rfl⟩]
      simp only [bind,Except.bind,hadd,hfiles]
    · have hadd : rt.add file (recordOfItem pre item) =
          .ok (file ++ [recordOfItem pre item]) := by
        refine rt.add_eq_ok.mpr ⟨fun x hx => ?_,rfl⟩
        exact hacross x (mem_of_getLast? hx) _ (by simp)
      obtain ⟨files,hfiles⟩ := @ih (decodeSorterItem item).2.key
        (file ++ [recordOfItem pre item]) (by simpa using hsorted) (.inr (by simp))
      refine ⟨files,?_⟩
      simp only [hadd,bind,Except.bind,hfiles]

end

def pairsOf (sets : List (Int64 × ChangeSet)) : List (UInt64 × KVPair) :=
  sets.flatMap fun set => set.2.map (set.1.toUInt64,·)

def recordOfPair (store : Bytes) (x : UInt64 × KVPair) : KVRecord :=
  ⟨prependStoreKey store x.2.key,x.1,if x.2.delete then none else some x.2.value⟩

def encodePair (x : UInt64 × KVPair) : Bytes := encodeSorterItem x.1 x.2

/-- The calls that feed the change sets directly. -/
def feeds (store : Bytes) (sets : List (Int64 × ChangeSet)) : List VersionStore.Call :=
  sets.map fun set => .feedChangeSet set.1 store set.2

theorem writes_feeds (store : Bytes) (sets : List (Int64 × ChangeSet)) :
    ((feeds store sets).flatMap VersionStore.Call.writes).map VersionStore.prepend =
      (pairsOf sets).map (recordOfPair store) := by
  simp only [feeds,pairsOf,flatMap_map,map_flatMap,VersionStore.Call.writes,List.map_map]
  rfl

theorem items_eq (sets : List (Int64 × ChangeSet)) :
    (sets.flatMap fun (version,changeSet) => changeSet.map (encodeSorterItem version.toUInt64)) =
      (pairsOf sets).map encodePair := by
  simp only [pairsOf,map_flatMap,List.map_map]
  rfl

theorem perm_pairsOf {sets sets' : List (Int64 × ChangeSet)} (h : sets.Perm sets') :
    (pairsOf sets).Perm (pairsOf sets') := h.flatMap_right _

theorem scanChangeSetFiles_perm (files : List ChangeSetFile) :
    (scanChangeSetFiles files).flatten.Perm files.flatten := by
  have hfilter : (files.filter (· ≠ [])).flatten = files.flatten := by
    induction files with
    | nil => rfl
    | cons file files ih =>
      by_cases h : file = []
      · simpa [h] using ih
      · simpa [h] using ih
  rw [← hfilter]
  exact (mergeSort_perm ..).flatten

theorem toUInt64_inj {a b : Int64} (h : a.toUInt64 = b.toUInt64) : a = b := by
  cases a
  cases b
  cases h
  rfl

/-- Pairs of one change set have different keys, and those of different ones different
timestamps. -/
theorem nodup_slots {sets : List (Int64 × ChangeSet)}
    (hversions : (sets.map Prod.fst).Pairwise (· < ·))
    (hkeys : ∀ set ∈ sets, (set.2.map KVPair.key).Nodup) :
    ((pairsOf sets).map fun x => (x.2.key,x.1)).Nodup := by
  rw [pairsOf,map_flatMap,nodup_flatMap]
  constructor
  · intro set hset
    have hmap : (set.2.map (set.1.toUInt64,·)).map (fun x : UInt64 × KVPair => (x.2.key,x.1)) =
        (set.2.map KVPair.key).map (·,set.1.toUInt64) := by simp
    rw [hmap]
    exact (hkeys set hset).map fun a b h => (Prod.mk.inj h).1
  · rw [pairwise_map] at hversions
    refine hversions.imp fun {a b} hlt => ?_
    rw [Function.onFun,disjoint_left]
    intro x hx hy
    simp only [List.map_map,List.mem_map,Function.comp_apply] at hx hy
    obtain ⟨p,-,rfl⟩ := hx
    obtain ⟨q,-,hq⟩ := hy
    have htime : b.1.toUInt64 = a.1.toUInt64 := (Prod.mk.inj hq).2
    have hsame : a.1 = b.1 := (toUInt64_inj htime).symm
    exact Int64.lt_irrefl (hsame ▸ hlt)

theorem length_encodePair (x : UInt64 × KVPair) : x.2.key.length+13 ≤ (encodePair x).length := by
  simp only [encodePair,encodeSorterItem,length_append,length_putLE]
  split <;> simp only [length_cons,length_nil] <;> omega

theorem recordOfItem_encodePair {store : Bytes} {x : UInt64 × KVPair}
    (hkey : x.2.key.length < 2^32) :
    recordOfItem (storePrefix store) (encodePair x) = recordOfPair store x := by
  rw [recordOfItem,encodePair,decode_encode hkey,recordOfPair]
  cases x.2.delete <;> rfl

/-- Sorted items with different slots give records in order. -/
theorem pairwise_before {pre : Bytes} {items : List Bytes}
    (hsorted : Sorted compareSorterItem items)
    (hslots : (items.map fun item => (key item,version item)).Nodup) :
    (items.map (recordOfItem pre)).Pairwise Before := by
  rw [pairwise_map]
  have hslots := pairwise_map.mp hslots
  refine (hsorted.and hslots).imp fun {a b} h => ?_
  obtain ⟨hle,hne⟩ := h
  rw [← Bool.not_eq_true,compareSorterItem_iff,not_or,not_and,not_lt,not_lt] at hle
  change pre ++ key a < pre ++ key b ∨ pre ++ key a = pre ++ key b ∧ version b < version a
  rw [append_lt_append_iff,append_cancel_left_eq]
  rcases hle.1.lt_or_eq with hlt | heq
  · exact .inl hlt
  · refine .inr ⟨heq,lt_of_le_of_ne (hle.2 heq.symm) fun hv => hne ?_⟩
    rw [heq,hv]

theorem Outcome.ofExcept_eq_ok {α : Type} {x : Except String α} {a : α}
    (h : Outcome.ofExcept x = .ok a) : x = .ok a := by
  cases x with
  | error err => cases h
  | ok b =>
    cases h
    rfl

theorem spawn_records {rt : SstRuntime} (store : Bytes) {pairs : List (UInt64 × KVPair)}
    {chunkSize : ℤ} {sorted : List Bytes}
    (hslots : (pairs.map fun x => (x.2.key,x.1)).Nodup)
    (h : ExtSorter.spawn ⟨true,chunkSize,compareSorterItem⟩ rt.toRuntime (pairs.map encodePair) =
      .ok sorted) :
    (sorted.map (recordOfItem (storePrefix store))).Pairwise Before ∧
      (sorted.map (recordOfItem (storePrefix store))).Perm (pairs.map (recordOfPair store)) := by
  have hshort : ∀ item ∈ pairs.map encodePair, item.length ≤ maxUint32 := by
    intro item hitem
    by_contra hlong
    rw [ExtSorter.spawn_long _ _ hitem (not_le.mp hlong)] at h
    cases h
  have hkey : ∀ x ∈ pairs, x.2.key.length < 2^32 := by
    intro x hx
    have hitem := hshort _ (List.mem_map_of_mem hx)
    have hlen := length_encodePair x
    rw [maxUint32] at hitem
    omega
  obtain ⟨sorted',hsorted',hperm,hsorted⟩ :=
    ExtSorter.spawn_spec ⟨true,chunkSize,compareSorterItem⟩ strictWeak_compareSorterItem
      rt.toRuntime hshort
  cases hsorted'.symm.trans h
  constructor
  · refine pairwise_before hsorted ((hperm.map _).nodup_iff.mpr ?_)
    rw [List.map_map]
    refine (map_congr_left fun x hx => ?_).symm ▸ hslots
    simp only [Function.comp_apply,encodePair,key_encode (hkey x hx),version_encode (hkey x hx)]
  · refine (hperm.map _).trans (.of_eq ?_)
    rw [List.map_map]
    exact map_congr_left fun x hx => recordOfItem_encodePair (hkey x hx)

/-- The files are built if all pairs are short and an empty file is not too large already. -/
theorem convertSingleStore_returns (rt : SstRuntime) (store : Bytes)
    {sets : List (Int64 × ChangeSet)} (hversions : (sets.map Prod.fst).Pairwise (· < ·))
    (hkeys : ∀ set ∈ sets, (set.2.map KVPair.key).Nodup) {files : List ChangeSetFile}
    (hfiles : files.flatten.Perm sets)
    (hshort : ∀ x ∈ pairsOf sets, (encodePair x).length ≤ maxUint32) {sstFileSize : ℕ}
    (hsize : rt.fileSize [] < sstFileSize) (sorterChunkSize : ℤ) :
    ∃ out, convertSingleStore rt store files sstFileSize sorterChunkSize = .ok out := by
  have hperm := perm_pairsOf ((scanChangeSetFiles_perm files).trans hfiles)
  simp only [convertSingleStore,items_eq]
  generalize pairsOf (scanChangeSetFiles files).flatten = pairs at hperm
  split
  · exact ⟨[],rfl⟩
  · rename_i hne
    have hitems : ∀ item ∈ pairs.map encodePair, item.length ≤ maxUint32 := by
      intro item hitem
      obtain ⟨x,hx,rfl⟩ := List.mem_map.mp hitem
      exact hshort x (hperm.mem_iff.mp hx)
    obtain ⟨sorted,hspawn,hsorted,-⟩ :=
      ExtSorter.spawn_spec ⟨true,sorterChunkSize,compareSorterItem⟩ strictWeak_compareSorterItem
        rt.toRuntime hitems
    obtain ⟨hbefore,-⟩ := spawn_records store
      ((hperm.map _).nodup_iff.mpr (nodup_slots hversions hkeys)) hspawn
    have hsorted_ne : sorted ≠ [] := by
      rintro rfl
      exact hne hsorted.symm.eq_nil
    obtain ⟨out,hout⟩ := @writeSstFiles_ok rt sstFileSize (storePrefix store) hsize sorted
      [] [] (by simpa using hbefore) (.inl hsorted_ne)
    exact ⟨out,by rw [hspawn,Outcome.bind_ok,hout]; rfl⟩

/-- A runtime that sorts by merging and counts the records of a file. -/
def mergeRuntime : SstRuntime where
  sortSlice l := l.mergeSort fun a b => !compareSorterItem b a
  sortSlice_perm l := mergeSort_perm l _
  sortSlice_sorted := sorted_mergeSort strictWeak_compareSorterItem
  finished files := files.reverse
  finished_perm files := files.reverse_perm
  fileSize := List.length
  add file r :=
    if ∀ x ∈ file.getLast?, Before x r then .ok (file ++ [r])
    else .error "Invalid argument: Keys must be added in strict ascending order."
  add_eq_ok := ite_ok_error
  finish file :=
    if file ≠ [] then .ok file
    else .error "Invalid argument: Cannot create sst file with no entries"
  finish_eq_ok := ite_ok_error

/-- For every sequence of change sets with increasing versions and different keys in each, however
it is split over files, the SST files together have the records that feeding the change sets
gives. They are in order within each file and from file to file, and no key is in two files. -/
theorem convertSingleStore_eq_feed (rt : SstRuntime) (store : Bytes)
    {sets : List (Int64 × ChangeSet)} (hversions : (sets.map Prod.fst).Pairwise (· < ·))
    (hkeys : ∀ set ∈ sets, (set.2.map KVPair.key).Nodup) {files : List ChangeSetFile}
    (hfiles : files.flatten.Perm sets) {sstFileSize : ℕ} {sorterChunkSize : ℤ}
    {out : List (List KVRecord)}
    (h : convertSingleStore rt store files sstFileSize sorterChunkSize = .ok out) :
    out.flatten = (VersionStore.run {} (feeds store sets)).records.records ∧
      out.flatten.Pairwise Before ∧ KeysApart out := by
  have hperm := perm_pairsOf ((scanChangeSetFiles_perm files).trans hfiles)
  simp only [convertSingleStore,items_eq] at h
  generalize pairsOf (scanChangeSetFiles files).flatten = pairs at hperm h
  have hslots := nodup_slots hversions hkeys
  have hwritten : ∀ r, r ∈ (VersionStore.run {} (feeds store sets)).records.records ↔
      r ∈ pairs.map (recordOfPair store) := by
    intro r
    rw [VersionStore.records_run,writes_feeds,mem_writeAll_of_nodup,(hperm.map _).mem_iff]
    have hmap : ((pairsOf sets).map (recordOfPair store)).map (fun w => (w.key,w.time)) =
        ((pairsOf sets).map fun x => (x.2.key,x.1)).map
          fun p => (prependStoreKey store p.1,p.2) := by
      simp only [List.map_map]
      rfl
    rw [hmap]
    refine hslots.map fun p q hpq => ?_
    obtain ⟨hkey,htime⟩ := Prod.mk.inj hpq
    exact Prod.ext (append_cancel_left hkey) htime
  have hstore := (VersionStore.run {} (feeds store sets)).records.sorted
  split at h
  · rename_i hnil
    cases h
    have hempty : (VersionStore.run {} (feeds store sets)).records.records = [] := by
      rw [eq_nil_iff_forall_not_mem]
      intro r hr
      rw [hwritten,map_eq_nil_iff.mp hnil] at hr
      cases hr
    exact ⟨hempty.symm,.nil,.nil⟩
  · cases hspawn : ExtSorter.spawn ⟨true,sorterChunkSize,compareSorterItem⟩ rt.toRuntime
        (pairs.map encodePair) with
    | error err =>
      rw [hspawn] at h
      cases h
    | panic =>
      rw [hspawn] at h
      cases h
    | ok sorted =>
      rw [hspawn,Outcome.bind_ok] at h
      obtain ⟨hbefore,hrecords⟩ :=
        spawn_records store ((hperm.map _).nodup_iff.mpr hslots) hspawn
      have hwrite : writeSstFiles rt sstFileSize (storePrefix store) [] [] sorted =
          .ok out := Outcome.ofExcept_eq_ok h
      obtain ⟨hflat,hapart⟩ := writeSstFiles_spec (by simpa using hbefore) (by simp) hwrite
      rw [nil_append] at hflat
      rw [← hflat] at hbefore hrecords
      exact ⟨eq_of_mem_iff hbefore hstore fun r => hrecords.mem_iff.trans (hwritten r).symm,
        hbefore,hapart⟩

theorem convertSingleStore_eq_feed_two_files :
    let sets : List (Int64 × ChangeSet) :=
      [(1,[{ key := [2], value := [8] },{ key := [1], value := [7] }]),(2,[{ key := [1], delete := true }])]
    ∃ out, convertSingleStore mergeRuntime [97] [sets.drop 1,[],sets.take 1] 1 20 = .ok out ∧
      out.flatten = (VersionStore.run {} (feeds [97] sets)).records.records ∧ KeysApart out := by
  intro sets
  have hversions : (sets.map Prod.fst).Pairwise (· < ·) := by decide
  have hkeys : ∀ set ∈ sets, (set.2.map KVPair.key).Nodup := by decide
  have hfiles : [sets.drop 1,[],sets.take 1].flatten.Perm sets := by decide
  have hsize : mergeRuntime.fileSize [] < 1 := by decide
  obtain ⟨out,hout⟩ := convertSingleStore_returns mergeRuntime [97] hversions hkeys hfiles
    (by decide) hsize 20
  obtain ⟨heq,-,hapart⟩ := convertSingleStore_eq_feed mergeRuntime [97] hversions hkeys hfiles hout
  exact ⟨out,hout,heq,hapart⟩

end Memiavl
