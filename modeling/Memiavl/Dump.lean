import Memiavl.StoreTree

/-! How the dump of a store is split: into chunks, which become files, and each chunk into ranges
for the workers, whose files are concatenated. -/
namespace Memiavl

open List

/-- An `int64`. -/
def wrap64 (x : ℤ) : ℤ := x.bmod (2^64)

/-- The versions from `start` up to `stop`, which is not one of them. -/
structure Range where
  start : ℤ
  stop : ℤ
  deriving DecidableEq

/-- The loop over ranges of a size up to `stop`, with a bound on its turns. -/
def rangesFrom (size stop : ℤ) : ℕ → ℤ → Option (List Range)
  | 0,_ => none
  | fuel+1,i =>
    if i < stop then
      let next := wrap64 (i+size)
      (rangesFrom size stop fuel next).map (⟨i,if next > stop then stop else next⟩::·)
    else some []

def splitWorkLoad (fuel : ℕ) (workers : ℤ) (full : Range) : Option (List Range) :=
  let chunkSize := (wrap64 (wrap64 (wrap64 (full.stop-full.start)+workers)-1)).tdiv workers
  rangesFrom chunkSize full.stop fuel full.start

def splitChunks (fuel : ℕ) (concurrency chunkSize start stop : ℤ) :
    Option (List (Range × List Range)) := do
  let chunks ← rangesFrom chunkSize stop fuel start
  chunks.mapM fun chunk => (splitWorkLoad fuel concurrency chunk).map (chunk,·)

def Range.versions (r : Range) : List ℤ := (range (r.stop-r.start).toNat).map fun i : ℕ => r.start+i

/-- What the change sets of a range are written to; `changes` has those of the versions of the
store. -/
def dumpRangeBlocks (changes : ℤ → Option ChangeSet) (r : Range) : List (ℤ × ChangeSet) :=
  r.versions.filterMap fun v => (changes v).map (v,·)

/-- `collect`: the files of the tasks of a chunk, which have the names of their start versions. -/
def collect (files : List (ℤ × List (ℤ × ChangeSet))) (taskFiles : List ℤ) :
    List (ℤ × ChangeSet) :=
  taskFiles.flatMap fun file => (files.lookup file).getD []

/-- The files of a store, in the order of their chunks. -/
def dumpStore (fuel : ℕ) (concurrency chunkSize start stop : ℤ)
    (changes : ℤ → Option ChangeSet) : Option (List (ℤ × List (ℤ × ChangeSet))) := do
  let chunks ← splitChunks fuel concurrency chunkSize start stop
  let files := (chunks.flatMap Prod.snd).map fun r => (r.start,dumpRangeBlocks changes r)
  some (chunks.map fun (chunk,tasks) => (chunk.start,collect files (tasks.map Range.start)))

inductive Tiles : ℤ → ℤ → List Range → Prop
  | nil (a : ℤ) : Tiles a a []
  | cons {a b c : ℤ} {rs : List Range} : a < b → Tiles b c rs → Tiles a c (⟨a,b⟩::rs)

namespace Tiles

variable {a b c : ℤ} {rs rs' : List Range}

section
variable (h : Tiles a b rs)
include h

theorem le : a ≤ b := by
  induction h with
  | nil => exact le_rfl
  | cons hlt _ ih => omega

theorem eq_nil (hle : b ≤ a) : rs = [] := by
  cases h with
  | nil => rfl
  | cons hlt htail =>
    have := htail.le
    omega

theorem append (h' : Tiles b c rs') : Tiles a c (rs ++ rs') := by
  induction h with
  | nil => exact h'
  | cons hlt _ ih => exact .cons hlt (ih h')

theorem bounds {r : Range} (hr : r ∈ rs) : a ≤ r.start ∧ r.start < r.stop ∧ r.stop ≤ b := by
  induction h with
  | nil => cases hr
  | cons hlt htail ih =>
    have := htail.le
    rcases mem_cons.mp hr with rfl | hr
    · exact ⟨le_rfl,hlt,this⟩
    · have := ih hr
      omega

theorem flatMap {f : Range → List Range} (hf : ∀ r ∈ rs, Tiles r.start r.stop (f r)) :
    Tiles a b (rs.flatMap f) := by
  induction h with
  | nil => exact .nil _
  | cons hlt _ ih =>
    exact (hf _ mem_cons_self).append (ih fun r hr => hf r (mem_cons_of_mem _ hr))

theorem pairwise_start : rs.Pairwise fun r r' => r.start < r'.start := by
  induction h with
  | nil => exact .nil
  | cons hlt htail ih =>
    exact pairwise_cons.mpr ⟨fun r hr => hlt.trans_le (htail.bounds hr).1,ih⟩

theorem versions_eq : Range.versions ⟨a,b⟩ = rs.flatMap Range.versions := by
  induction h with
  | nil => simp [Range.versions]
  | @cons a b c rs hlt htail ih =>
    have hle := htail.le
    rw [flatMap_cons,← ih]
    simp only [Range.versions]
    rw [show (c-a).toNat = (b-a).toNat+(c-b).toNat by omega,range_add,map_append,map_map]
    refine congrArg _ (map_congr_left fun x _ => ?_)
    simp only [Function.comp_apply]
    omega

end

end Tiles

theorem wrap64_eq {x : ℤ} (h : -2^63 ≤ x) (h' : x < 2^63) : wrap64 x = x :=
  Int.bmod_eq_of_le h h'

theorem rangesFrom_spec {size stop i : ℤ} {fuel : ℕ} (hsize : 1 ≤ size) (hi : -2^63 ≤ i)
    (hover : stop+size < 2^63) (hfuel : (stop-i).toNat < fuel) :
    ∃ rs, rangesFrom size stop fuel i = some rs ∧ Tiles i (max i stop) rs ∧
      (∀ r ∈ rs, r.stop-r.start ≤ size) ∧ ∀ n : ℕ, stop-i ≤ n*size → rs.length ≤ n := by
  induction fuel generalizing i with
  | zero => omega
  | succ fuel ih =>
    rw [rangesFrom]
    by_cases hlt : i < stop
    · have hnext : wrap64 (i+size) = i+size := wrap64_eq (by omega) (by omega)
      obtain ⟨rs,hrs,htiles,hsizes,hlen⟩ := ih (i := i+size) (by omega) (by omega)
      refine ⟨_,by rw [if_pos hlt,hnext]; simp only [hrs]; rfl,?_,?_,fun n hn => ?_⟩
      · by_cases hlast : i+size > stop
        · obtain rfl := htiles.eq_nil (by omega)
          rw [if_pos hlast,max_eq_right hlt.le]
          exact .cons hlt (.nil stop)
        · rw [if_neg hlast]
          rw [show max (i+size) stop = max i stop by omega] at htiles
          exact .cons (by omega) htiles
      · intro r hr
        rcases mem_cons.mp hr with rfl | hr
        · simp only
          split <;> omega
        · exact hsizes r hr
      · obtain _ | n := n
        · simp at hn
          omega
        · have := hlen n (by push_cast at hn; linarith)
          simpa using this
    · rw [if_neg hlt,max_eq_left (by omega)]
      exact ⟨[],rfl,.nil i,by simp,by simp⟩

theorem splitWorkLoad_spec {workers : ℤ} {full : Range} (fuel : ℕ) (hworkers : 1 ≤ workers)
    (hstart : -2^63 ≤ full.start) (hfull : full.start < full.stop)
    (hover : full.stop+(full.stop-full.start) < 2^63)
    (hsum : full.stop-full.start+workers < 2^63) (hfuel : (full.stop-full.start).toNat < fuel) :
    ∃ rs, splitWorkLoad fuel workers full = some rs ∧ Tiles full.start full.stop rs ∧
      rs.length ≤ workers := by
  have hwrap : wrap64 (wrap64 (wrap64 (full.stop-full.start)+workers)-1) =
      full.stop-full.start+workers-1 := by
    rw [wrap64_eq (x := full.stop-full.start),wrap64_eq (x := _+workers),wrap64_eq] <;> omega
  rw [splitWorkLoad,hwrap,Int.tdiv_eq_ediv_of_nonneg (by omega)]
  generalize hsize : (full.stop-full.start+workers-1)/workers = size
  -- The size is the length divided by the number of workers, rounded up.
  have hlow : full.stop-full.start ≤ workers*size := by
    have := Int.lt_mul_ediv_self_add (x := full.stop-full.start+workers-1) (by omega : 0 < workers)
    rw [hsize] at this
    omega
  have hpos : 1 ≤ size := by
    by_contra hneg
    have : workers*size ≤ 0 := Int.mul_nonpos_of_nonneg_of_nonpos (by omega) (by omega)
    omega
  have hle : size ≤ full.stop-full.start := by
    rw [← hsize]
    refine Int.ediv_le_of_le_mul (by omega) ?_
    nlinarith
  obtain ⟨rs,hrs,htiles,-,hlen⟩ := rangesFrom_spec hpos hstart (by omega) hfuel
  rw [max_eq_right hfull.le] at htiles
  have := hlen workers.toNat (by rwa [Int.toNat_of_nonneg (by omega)])
  exact ⟨rs,hrs,htiles,by omega⟩

theorem mapM_eq_some_map {α β : Type} {f : α → Option β} {g : α → β} {l : List α}
    (h : ∀ a ∈ l, f a = some (g a)) : l.mapM f = some (l.map g) := by
  induction l with
  | nil => rfl
  | cons a l ih =>
    rw [mapM_cons,h a mem_cons_self,ih fun x hx => h x (mem_cons_of_mem a hx)]
    rfl

/-- The file of a task is the one that it wrote, since no other task has its start version. -/
theorem collect_eq {tasks : List Range} {a b : ℤ} (h : Tiles a b tasks)
    (changes : ℤ → Option ChangeSet) {rs : List Range} (hrs : rs ⊆ tasks) :
    collect (tasks.map fun r => (r.start,dumpRangeBlocks changes r)) (rs.map Range.start) =
      rs.flatMap (dumpRangeBlocks changes) := by
  rw [collect,flatMap_map]
  refine flatMap_congr fun r hr => ?_
  have hlookup : (tasks.map fun r => (r.start,dumpRangeBlocks changes r)).lookup r.start =
      some (dumpRangeBlocks changes r) := by
    obtain ⟨l₁,l₂,rfl⟩ := append_of_mem (hrs hr)
    have hbefore := (pairwise_append.mp h.pairwise_start).2.2
    refine lookup_eq_some_iff.mpr ⟨_,_,map_append ..,fun p hp => ?_⟩
    obtain ⟨r',hr',rfl⟩ := List.mem_map.mp hp
    simpa using (hbefore r' hr' r mem_cons_self).ne'
  rw [hlookup]
  rfl

/-- The ranges of the tasks are consecutive, and so the files of a store have its change sets of
the versions from `start` up to `stop` in order. -/
theorem dump_partition {concurrency chunkSize start stop : ℤ} {fuel : ℕ}
    (hconcurrency : 1 ≤ concurrency) (hchunk : 1 ≤ chunkSize) (hstart : -2^63 ≤ start)
    (hover : stop+chunkSize < 2^63) (hsum : chunkSize+concurrency < 2^63)
    (hfuel : (stop-start).toNat < fuel) (changes : ℤ → Option ChangeSet) :
    ∃ chunks files, splitChunks fuel concurrency chunkSize start stop = some chunks ∧
      (∀ c ∈ chunks, c.2.length ≤ concurrency ∧ Tiles c.1.start c.1.stop c.2) ∧
      Tiles start (max start stop) (chunks.flatMap Prod.snd) ∧
      dumpStore fuel concurrency chunkSize start stop changes = some files ∧
      files.flatMap Prod.snd = dumpRangeBlocks changes ⟨start,stop⟩ := by
  obtain ⟨rs,hrs,htiles,hsizes,-⟩ := rangesFrom_spec hchunk hstart hover hfuel
  let tasks := fun r => (splitWorkLoad fuel concurrency r).getD []
  have hsplit : ∀ r ∈ rs, splitWorkLoad fuel concurrency r = some (tasks r) ∧
      Tiles r.start r.stop (tasks r) ∧ (tasks r).length ≤ concurrency := by
    intro r hr
    have hb := htiles.bounds hr
    have hsize := hsizes r hr
    have hmax : r.stop ≤ stop := by omega
    obtain ⟨ts,hts,ht,hlen⟩ := splitWorkLoad_spec fuel hconcurrency
      (by omega) hb.2.1 (by omega) (by omega) (by omega)
    have heq : tasks r = ts := by simp only [tasks,hts,Option.getD_some]
    rw [heq]
    exact ⟨hts,ht,hlen⟩
  have hchunks : splitChunks fuel concurrency chunkSize start stop =
      some (rs.map fun r => (r,tasks r)) := by
    rw [splitChunks,hrs]
    exact mapM_eq_some_map fun r hr => by rw [(hsplit r hr).1]; rfl
  have hall : Tiles start (max start stop) (rs.flatMap tasks) :=
    htiles.flatMap fun r hr => (hsplit r hr).2.1
  have hflat : (rs.map fun r => (r,tasks r)).flatMap Prod.snd = rs.flatMap tasks := flatMap_map ..
  refine ⟨_,_,hchunks,?_,by rwa [hflat],by rw [dumpStore,hchunks]; rfl,?_⟩
  · intro c hc
    obtain ⟨r,hr,rfl⟩ := List.mem_map.mp hc
    exact ⟨(hsplit r hr).2.2,(hsplit r hr).2.1⟩
  · rw [hflat,flatMap_map]
    have hcollect : ∀ r ∈ rs, collect ((rs.flatMap tasks).map fun r =>
        (r.start,dumpRangeBlocks changes r)) ((tasks r).map Range.start) =
          (tasks r).flatMap (dumpRangeBlocks changes) := fun r hr =>
      collect_eq hall changes fun t ht => mem_flatMap.mpr ⟨r,hr,ht⟩
    have hversions : Range.versions ⟨start,stop⟩ = (rs.flatMap tasks).flatMap Range.versions := by
      rw [← hall.versions_eq,Range.versions,Range.versions]
      simp only
      rw [show (max start stop-start).toNat = (stop-start).toNat by omega]
    rw [dumpRangeBlocks,hversions,filterMap_flatMap,flatMap_assoc,flatMap_map]
    exact flatMap_congr hcollect

theorem dump_partition_two_chunks : ∃ chunks files, splitChunks 8 3 4 1 8 = some chunks ∧
    (∀ c ∈ chunks, c.2.length ≤ (3 : ℤ) ∧ Tiles c.1.start c.1.stop c.2) ∧
    Tiles 1 (max 1 8) (chunks.flatMap Prod.snd) ∧
    dumpStore 8 3 4 1 8 (fun _ => some []) = some files ∧
    files.flatMap Prod.snd = dumpRangeBlocks (fun _ => some []) ⟨1,8⟩ :=
  dump_partition (by norm_num) (by norm_num) (by norm_num) (by norm_num) (by norm_num)
    (by norm_num) _

/-- With as many workers as there are numbers the sum overflows, and the first range goes
backwards. -/
theorem splitWorkLoad_overflows :
    ¬∃ fuel rs, splitWorkLoad fuel (2^63-1) ⟨0,2⟩ = some rs ∧ Tiles 0 2 rs := by
  rintro ⟨_ | fuel,rs,hrs,htiles⟩
  · cases hrs
  · have hsize : (wrap64 (wrap64 (wrap64 (2-0)+(2^63-1))-1)).tdiv (2^63-1) = -1 := by decide
    rw [splitWorkLoad,hsize,rangesFrom,if_pos (by norm_num)] at hrs
    obtain ⟨rs,-,rfl⟩ := Option.map_eq_some_iff.mp hrs
    exact absurd (htiles.bounds mem_cons_self).2.1 (by decide)

end Memiavl
