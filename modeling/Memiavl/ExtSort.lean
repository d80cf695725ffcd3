import Memiavl.Import
import Memiavl.Library.Uvarint
import Memiavl.Library.KWayMerge

/-! The external sorter: items are collected in chunks, each chunk is sorted and written to a file,
with delta encoding or with the length in front of each item, and the files are merged. The
compression of the files is left out. How `sort.Slice` orders equal items and in which order the
chunks are finished is up to the runtime. -/
namespace Memiavl

open Bytes KWayMerge MinHeap List

def diffOffset : Bytes → Bytes → ℕ
  | a::as,b::bs => if a = b then diffOffset as bs+1 else 0
  | _,_ => 0

/-- `DeltaEncoder.Write` after `last`. -/
def deltaWrite (last key : Bytes) : Bytes :=
  let shared := diffOffset last key
  putUvarint shared ++ putUvarint (key.length-shared) ++ key.drop shared

def deltaWriteAll : Bytes → List Bytes → Bytes
  | _,[] => []
  | last,key::keys => deltaWrite last key ++ deltaWriteAll key keys

/-- A stream of the items of a file: the last item and the bytes that are left. -/
structure ChunkReader where
  last : Bytes := []
  reader : Bytes

namespace ChunkReader

/-- `DeltaDecoder.Read`. -/
def deltaRead (r : ChunkReader) : Except ReadError (Bytes × ChunkReader) := do
  let (shared,reader) ← readUvarint r.reader
  let (nonShared,reader) ← readUvarint reader
  if r.last.length < shared then .error .panic
  else
    let (tail,reader) ← readFull nonShared reader
    let item := r.last.take shared ++ tail
    .ok (item,⟨item,reader⟩)

/-- `DeltaDecoder.Read` until it fails, with a bound on the reads: the items and the error. -/
def deltaReadAll : ℕ → ChunkReader → List Bytes × Option ReadError
  | 0,_ => ([],none)
  | fuel+1,r =>
    match r.deltaRead with
    | .error err => ([],some err)
    | .ok (item,r) =>
      let (items,err) := deltaReadAll fuel r
      (item::items,err)

def plainRead (r : ChunkReader) : Except ReadError (Bytes × ChunkReader) := do
  let (size,reader) ← readUvarint r.reader
  let (item,reader) ← readFull size reader
  .ok (item,⟨item,reader⟩)

/-- The stream of a file. With delta encoding every end of the file ends the stream; without it
only one in front of an item does. -/
def next (deltaEncoding : Bool) (r : ChunkReader) :
    Except ReadError (Option (Bytes × ChunkReader)) :=
  if deltaEncoding then
    match r.deltaRead with
    | .ok x => .ok (some x)
    | .error err => if err = .eof then .ok none else .error err
  else if readUvarint r.reader = .error .eof then .ok none
  else r.plainRead.map some

end ChunkReader

structure ExtSorter.Options where
  deltaEncoding : Bool
  maxChunkSize : ℤ
  lesserFunc : Bytes → Bytes → Bool

/-- What the sorter does not decide itself. -/
structure Runtime (less : Bytes → Bytes → Bool) where
  sortSlice : List Bytes → List Bytes
  sortSlice_perm : ∀ l, (sortSlice l).Perm l
  sortSlice_sorted : ∀ l, Sorted less (sortSlice l)
  /-- The files in the order in which they are finished. -/
  finished : List Bytes → List Bytes
  finished_perm : ∀ files, (finished files).Perm files

theorem sorted_mergeSort {less : Bytes → Bytes → Bool} (h : StrictWeak less) (l : List Bytes) :
    Sorted less (l.mergeSort fun a b => !less b a) := by
  refine (pairwise_mergeSort (fun a b c hab hbc => ?_) (fun a b => ?_) l).imp fun h => ?_
  · simp only [Bool.not_eq_true'] at hab hbc ⊢
    exact h.trans a b c hab hbc
  · cases hba : less b a with
    | false => rfl
    | true => simp [h.asymm b a hba]
  · simpa using h

/-- A runtime that sorts by merging; the last chunk is finished first. -/
def mergeSortRuntime {less : Bytes → Bytes → Bool} (h : StrictWeak less) : Runtime less where
  sortSlice l := l.mergeSort fun a b => !less b a
  sortSlice_perm l := mergeSort_perm l _
  sortSlice_sorted := sorted_mergeSort h
  finished files := files.reverse
  finished_perm files := files.reverse_perm

structure ExtSorter where
  currentChunk : List Bytes := []
  currentChunkSize : ℤ := 0
  /-- The chunks that are sorted and written. -/
  chunks : List (List Bytes) := []

namespace ExtSorter

def sortChunkAndRotate (s : ExtSorter) : ExtSorter := ⟨[],0,s.chunks ++ [s.currentChunk]⟩

def feed (o : Options) (s : ExtSorter) (item : Bytes) : Except String ExtSorter :=
  if item.length > maxUint32 then .error "item length overflows uint32"
  else
    let s : ExtSorter := ⟨s.currentChunk ++ [item],s.currentChunkSize+item.length+4,s.chunks⟩
    if s.currentChunkSize ≥ o.maxChunkSize then .ok s.sortChunkAndRotate else .ok s

def feedAll (o : Options) (s : ExtSorter) : List Bytes → Except String ExtSorter
  | [] => .ok s
  | item::items => do
    let s ← s.feed o item
    s.feedAll o items

def saveChunk (o : Options) (chunk : List Bytes) : Bytes :=
  if o.deltaEncoding then deltaWriteAll [] chunk
  else chunk.flatMap fun item => putUvarint item.length ++ item

def finalize (o : Options) (rt : Runtime o.lesserFunc) (s : ExtSorter) :
    Except ReadError (List (Entry Bytes ChunkReader)) :=
  let s := if s.currentChunkSize > 0 then s.sortChunkAndRotate else s
  let files := rt.finished (s.chunks.map fun chunk => saveChunk o (rt.sortSlice chunk))
  start (ChunkReader.next o.deltaEncoding) o.lesserFunc (files.map fun file => ⟨[],file⟩)

/-- `Spawn`, from the items of the input channel to those of the output channel. An error
panics. -/
def spawn (o : Options) (rt : Runtime o.lesserFunc) (items : List Bytes) : Outcome (List Bytes) :=
  match feedAll o {} items with
  | .error _ => .panic
  | .ok s =>
    match s.finalize o rt with
    | .error _ => .panic
    | .ok merge =>
      match drain (ChunkReader.next o.deltaEncoding) o.lesserFunc (items.length+1) merge with
      | .error _ => .panic
      | .ok out => .ok out

end ExtSorter

theorem diffOffset_spec (a b : Bytes) : diffOffset a b ≤ a.length ∧ diffOffset a b ≤ b.length ∧
    a.take (diffOffset a b) = b.take (diffOffset a b) := by
  induction a generalizing b with
  | nil => simp [diffOffset]
  | cons x a ih =>
    cases b with
    | nil => simp [diffOffset]
    | cons y b =>
      rw [diffOffset]
      split
      · rename_i hxy
        obtain ⟨ha,hb,htake⟩ := ih b
        exact ⟨by simpa using ha,by simpa using hb,by simp [hxy,htake]⟩
      · simp

namespace ChunkReader

theorem deltaRead_write (last : Bytes) {key : Bytes} (hkey : key.length < 2^64) (rest : Bytes) :
    deltaRead ⟨last,deltaWrite last key ++ rest⟩ = .ok (key,⟨key,rest⟩) := by
  obtain ⟨hlast,hle,htake⟩ := diffOffset_spec last key
  have hshared := readUvarint_put (n := diffOffset last key) (by omega)
    (putUvarint (key.length-diffOffset last key) ++ (key.drop (diffOffset last key) ++ rest))
  have hnonShared := readUvarint_put (n := key.length-diffOffset last key) (by omega)
    (key.drop (diffOffset last key) ++ rest)
  have hfull := readFull_append (key.drop (diffOffset last key)) rest
  rw [length_drop] at hfull
  simp only [deltaRead,deltaWrite,append_assoc,hshared,hnonShared,hfull,bind,Except.bind,
    if_neg (not_lt.mpr hlast),htake,take_append_drop]

theorem deltaReadAll_write (last : Bytes) {items : List Bytes}
    (h : ∀ item ∈ items, item.length < 2^64) :
    deltaReadAll (items.length+1) ⟨last,deltaWriteAll last items⟩ = (items,some .eof) := by
  induction items generalizing last with
  | nil => rfl
  | cons item items ih =>
    rw [length_cons,deltaReadAll,deltaWriteAll,deltaRead_write last (h item (by simp))]
    simp only [ih item fun x hx => h x (by simp [hx])]

/-- One decoder reads what one encoder has written, and then the end of the file. An item takes at
most its bytes and the two counters. -/
theorem delta_round_trip {items : List Bytes} (h : ∀ item ∈ items, item.length < 2^64) :
    deltaReadAll (items.length+1) ⟨[],deltaWriteAll [] items⟩ = (items,some .eof) ∧
      ∀ last item : Bytes, (deltaWrite last item).length ≤ item.length+
        ((putUvarint (diffOffset last item)).length+
          (putUvarint (item.length-diffOffset last item)).length) := by
  refine ⟨deltaReadAll_write [] h,fun last item => ?_⟩
  simp only [deltaWrite,length_append,length_drop]
  omega

theorem delta_round_trip_shared :
    deltaReadAll 5 ⟨[],deltaWriteAll [] [[1],[1,2],[],[1]]⟩ = ([[1],[1,2],[],[1]],some .eof) :=
  (@delta_round_trip [[1],[1,2],[],[1]] (by decide)).1

theorem plainRead_write (last : Bytes) {item : Bytes} (hitem : item.length < 2^64) (rest : Bytes) :
    plainRead ⟨last,putUvarint item.length ++ item ++ rest⟩ = .ok (item,⟨item,rest⟩) := by
  have hsize := readUvarint_put hitem (item ++ rest)
  simp only [plainRead,append_assoc,hsize,readFull_append,bind,Except.bind]

theorem yields_delta (last : Bytes) {items : List Bytes} (h : ∀ item ∈ items, item.length < 2^64) :
    Yields (next true) ⟨last,deltaWriteAll last items⟩ items := by
  induction items generalizing last with
  | nil => exact .done rfl
  | cons item items ih =>
    refine .more ?_ (ih item fun x hx => h x (by simp [hx]))
    simp only [next,if_true,deltaWriteAll,deltaRead_write last (h item (by simp))]

theorem yields_plain (last : Bytes) {items : List Bytes} (h : ∀ item ∈ items, item.length < 2^64) :
    Yields (next false) ⟨last,items.flatMap fun item => putUvarint item.length ++ item⟩ items := by
  induction items generalizing last with
  | nil => exact .done rfl
  | cons item items ih =>
    refine .more ?_ (ih item fun x hx => h x (by simp [hx]))
    have hread := plainRead_write last (h item (by simp))
      (items.flatMap fun item => putUvarint item.length ++ item)
    have hsize := readUvarint_put (h item (by simp))
      (item ++ items.flatMap fun item => putUvarint item.length ++ item)
    rw [flatMap_cons]
    rw [← append_assoc] at hsize
    simp only [next,Bool.false_eq_true,if_false,hread,hsize,reduceCtorEq]
    rfl

theorem yields_saveChunk (o : ExtSorter.Options) {items : List Bytes}
    (h : ∀ item ∈ items, item.length < 2^64) :
    Yields (next o.deltaEncoding) ⟨[],ExtSorter.saveChunk o items⟩ items := by
  unfold ExtSorter.saveChunk
  cases o.deltaEncoding with
  | true => exact yields_delta [] h
  | false => exact yields_plain [] h

end ChunkReader

namespace ExtSorter

def fed (s : ExtSorter) : List Bytes := s.chunks.flatten ++ s.currentChunk

/-- The size of the current chunk counts its items. -/
def Counted (s : ExtSorter) : Prop :=
  0 ≤ s.currentChunkSize ∧ (s.currentChunk ≠ [] → 0 < s.currentChunkSize)

theorem fed_sortChunkAndRotate (s : ExtSorter) : s.sortChunkAndRotate.fed = s.fed := by
  simp [fed,sortChunkAndRotate]

theorem counted_sortChunkAndRotate (s : ExtSorter) : s.sortChunkAndRotate.Counted :=
  ⟨le_rfl,fun h => absurd rfl h⟩

variable {s : ExtSorter} {item : Bytes} {items : List Bytes}

theorem feed_spec (o : Options) (hs : s.Counted) (hitem : item.length ≤ maxUint32) :
    ∃ s', s.feed o item = .ok s' ∧ s'.fed = s.fed ++ [item] ∧ s'.Counted := by
  have hgrown : Counted ⟨s.currentChunk ++ [item],s.currentChunkSize+item.length+4,s.chunks⟩ := by
    have := hs.1
    exact ⟨by simp only; omega,fun _ => by simp only; omega⟩
  have hfed : fed ⟨s.currentChunk ++ [item],s.currentChunkSize+item.length+4,s.chunks⟩ =
      s.fed ++ [item] := by simp [fed]
  rw [feed,if_neg (not_lt.mpr hitem)]
  simp only
  split
  · exact ⟨_,rfl,(fed_sortChunkAndRotate _).trans hfed,counted_sortChunkAndRotate _⟩
  · exact ⟨_,rfl,hfed,hgrown⟩

theorem feedAll_spec (o : Options) (hs : s.Counted)
    (hitems : ∀ item ∈ items, item.length ≤ maxUint32) :
    ∃ s', s.feedAll o items = .ok s' ∧ s'.fed = s.fed ++ items ∧ s'.Counted := by
  induction items generalizing s with
  | nil => exact ⟨s,rfl,by simp,hs⟩
  | cons item items ih =>
    obtain ⟨s₁,hfeed,hfed,hs₁⟩ := feed_spec o hs (hitems item (by simp))
    obtain ⟨s₂,hrest,hfed₂,hs₂⟩ := ih hs₁ fun x hx => hitems x (by simp [hx])
    refine ⟨s₂,?_,by rw [hfed₂,hfed]; simp,hs₂⟩
    rw [feedAll,hfeed]
    exact hrest

theorem feedAll_long (o : Options) (hs : s.Counted) (hmem : item ∈ items)
    (hlong : maxUint32 < item.length) : ∃ err, s.feedAll o items = .error err := by
  induction items generalizing s with
  | nil => cases hmem
  | cons x items ih =>
    by_cases hx : x.length ≤ maxUint32
    · obtain ⟨s₁,hfeed,-,hs₁⟩ := feed_spec o hs hx
      rcases mem_cons.mp hmem with rfl | hmem
      · exact absurd hx (not_le.mpr hlong)
      · obtain ⟨err,herr⟩ := ih hs₁ hmem
        exact ⟨err,by rw [feedAll,hfeed]; exact herr⟩
    · exact ⟨_,by rw [feedAll,feed,if_pos (not_le.mp hx)]; rfl⟩

theorem finalize_spec (o : Options) (hless : StrictWeak o.lesserFunc) (rt : Runtime o.lesserFunc)
    (hs : s.Counted) (hitems : ∀ item ∈ s.fed, item.length ≤ maxUint32) :
    ∃ es ls, s.finalize o rt = .ok es ∧
      Merging (ChunkReader.next o.deltaEncoding) o.lesserFunc es ls ∧ ls.flatten.Perm s.fed := by
  obtain ⟨s',hs',hfed,hdone⟩ : ∃ s', (if s.currentChunkSize > 0 then s.sortChunkAndRotate else s) =
      s' ∧ s'.fed = s.fed ∧ s'.currentChunk = [] := by
    split
    · exact ⟨_,rfl,fed_sortChunkAndRotate s,rfl⟩
    · rename_i hzero
      exact ⟨_,rfl,rfl,not_not.mp fun h => hzero (hs.2 h)⟩
  have hchunks : s'.chunks.flatten = s.fed := by
    rw [← hfed,fed,hdone,List.append_nil]
  have hfiles : List.Forall₂ (fun file => Yields (ChunkReader.next o.deltaEncoding) ⟨[],file⟩)
      (s'.chunks.map fun chunk => saveChunk o (rt.sortSlice chunk)) (s'.chunks.map rt.sortSlice) := by
    rw [forall₂_map_left_iff,forall₂_map_right_iff,forall₂_same]
    refine fun chunk hchunk => ChunkReader.yields_saveChunk o fun item hitem => ?_
    have hmem : item ∈ s.fed := by
      rw [← hchunks]
      exact mem_flatten.mpr ⟨chunk,hchunk,(rt.sortSlice_perm chunk).mem_iff.mp hitem⟩
    exact lt_of_le_of_lt (hitems item hmem) (by norm_num [maxUint32])
  obtain ⟨ls,hls,hperm⟩ := perm_comp_forall₂ (rt.finished_perm _) hfiles
  have hsorted : ∀ l ∈ ls, Sorted o.lesserFunc l := by
    intro l hl
    obtain ⟨chunk,-,rfl⟩ := List.mem_map.mp (hperm.mem_iff.mp hl)
    exact rt.sortSlice_sorted chunk
  have hflat : (s'.chunks.map rt.sortSlice).flatten.Perm s'.chunks.flatten := by
    refine List.Perm.flatten_congr ?_
    rw [forall₂_map_left_iff,forall₂_same]
    exact fun chunk _ => rt.sortSlice_perm chunk
  obtain ⟨es,ls',hstart,hm,hls'⟩ :=
    start_merging hless (forall₂_map_left_iff.mpr hls) hsorted
  refine ⟨es,ls',?_,hm,?_⟩
  · rw [finalize,hs']
    exact hstart
  · exact hls'.trans (hperm.flatten.trans (hchunks ▸ hflat))

/-- All items come out in order, whatever the runtime does, if none is too long. -/
theorem spawn_spec (o : Options) (hless : StrictWeak o.lesserFunc) (rt : Runtime o.lesserFunc)
    (hitems : ∀ item ∈ items, item.length ≤ maxUint32) :
    ∃ out, spawn o rt items = .ok out ∧ out.Perm items ∧ Sorted o.lesserFunc out := by
  have hempty : Counted {} := ⟨le_rfl,fun h => absurd rfl h⟩
  obtain ⟨s,hfeed,hfed,hs⟩ := feedAll_spec o hempty hitems
  have hfed : s.fed = items := hfed
  obtain ⟨es,ls,hfinal,hm,hperm⟩ := finalize_spec o hless rt hs (hfed ▸ hitems)
  rw [hfed] at hperm
  obtain ⟨out,hout,hall,hsorted⟩ := hm.yields hless
  have hlen : out.length ≤ items.length+1 := (hall.trans hperm).length_eq.trans_le (Nat.le_succ _)
  refine ⟨out,?_,hall.trans hperm,hsorted⟩
  simp only [spawn,hfeed,hfinal,hout.drain hlen]

theorem spawn_long (o : Options) (rt : Runtime o.lesserFunc) (hmem : item ∈ items)
    (hlong : maxUint32 < item.length) : spawn o rt items = .panic := by
  have hempty : Counted {} := ⟨le_rfl,fun h => absurd rfl h⟩
  obtain ⟨err,herr⟩ := feedAll_long o hempty hmem hlong
  simp only [spawn,herr]

/-- Items fed one after another, where the sorter stays as it was when `Feed` refuses an item. -/
def feedEach (o : Options) (s : ExtSorter) : List Bytes → ExtSorter
  | [] => s
  | item::items => feedEach o (match s.feed o item with | .ok s' => s' | .error _ => s) items

theorem feedEach_spec (o : Options) (hs : s.Counted) (items : List Bytes) :
    (s.feedEach o items).fed = s.fed ++ items.filter (·.length ≤ maxUint32) ∧
      (s.feedEach o items).Counted := by
  induction items generalizing s with
  | nil => simpa [feedEach] using hs
  | cons item items ih =>
    by_cases hitem : item.length ≤ maxUint32
    · obtain ⟨s',hfeed,hfed,hs'⟩ := feed_spec o hs hitem
      obtain ⟨hrest,hcounted⟩ := ih hs'
      simp only [feedEach,hfeed,filter_cons,hitem,decide_true,if_true]
      exact ⟨by rw [hrest,hfed]; simp,hcounted⟩
    · have hfeed : s.feed o item = .error "item length overflows uint32" := by
        rw [feed,if_pos (not_le.mp hitem)]
      simp only [feedEach,hfeed,filter_cons,hitem,decide_false,Bool.false_eq_true,if_false]
      exact ih hs

/-- After any items, `Finalize` returns a merge whose `Next` gives each item that `Feed` took, as
often as it took it, and then nothing more; no item is less than one before it. The order that
`sort.Slice` gives to equal items and the order in which the chunks are finished are arbitrary. -/
theorem finalize_sorted (o : Options) (hless : StrictWeak o.lesserFunc) (rt : Runtime o.lesserFunc)
    (items : List Bytes) : ∃ merge out, (feedEach o {} items).finalize o rt = .ok merge ∧
      Yields (pop (ChunkReader.next o.deltaEncoding) o.lesserFunc) merge out ∧
      out.Perm (items.filter (·.length ≤ maxUint32)) ∧ Sorted o.lesserFunc out := by
  have hempty : Counted {} := ⟨le_rfl,fun h => absurd rfl h⟩
  obtain ⟨hfed,hs⟩ := feedEach_spec o hempty items
  have hfed : (feedEach o {} items).fed = items.filter (·.length ≤ maxUint32) := hfed
  have hshort : ∀ item ∈ (feedEach o {} items).fed, item.length ≤ maxUint32 := by
    intro item hitem
    rw [hfed] at hitem
    simpa using (mem_filter.mp hitem).2
  obtain ⟨merge,ls,hfinal,hm,hperm⟩ := finalize_spec o hless rt hs hshort
  obtain ⟨out,hout,hall,hsorted⟩ := hm.yields hless
  exact ⟨merge,out,hfinal,hout,hall.trans (hfed ▸ hperm),hsorted⟩

/-- Items of equal length in two chunks, one of them empty, one fed twice. -/
theorem finalize_sorted_lengths :
    let o : Options := ⟨true,14,fun a b => a.length < b.length⟩
    let hless : StrictWeak o.lesserFunc := strictWeak_of_measure List.length
    ∃ merge out, (feedEach o {} [[2],[],[1,1],[3],[2]]).finalize o (mergeSortRuntime hless) = .ok merge ∧
      Yields (pop (ChunkReader.next true) o.lesserFunc) merge out ∧
      out.Perm [[2],[],[1,1],[3],[2]] ∧ Sorted o.lesserFunc out := by
  intro o hless
  obtain ⟨merge,out,hfinal,hout,hperm,hsorted⟩ :=
    finalize_sorted o hless (mergeSortRuntime hless) [[2],[],[1,1],[3],[2]]
  exact ⟨merge,out,hfinal,hout,hperm,hsorted⟩

end ExtSorter

end Memiavl
