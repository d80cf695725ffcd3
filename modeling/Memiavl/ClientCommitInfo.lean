import Memiavl.Import
import Memiavl.RootMulti

/-! The commit info that the `verify` and `restore-app-db` commands build from the stores, in the
order in which the workers or the loop give them. The commit infos of the SDK and of memiavl have
the same fields and are one type here. -/
namespace Memiavl.Client
open KeyedList List

structure Collected where
  storeInfos : List StoreInfo := []
  lastestVersion : ℕ := 0

def Collected.add (c : Collected) (storeInfo : StoreInfo) : Collected where
  storeInfos := c.storeInfos ++ [storeInfo]
  lastestVersion :=
    if storeInfo.commitId.version > c.lastestVersion then storeInfo.commitId.version
    else c.lastestVersion

/-- `buildCommitInfo`; the version handed to it is not used, and an empty list panics. -/
def buildCommitInfo (storeInfos : List StoreInfo) (_version : ℕ) : Outcome CommitInfo :=
  let storeInfos := storeInfos.insertionSort fun a b => a.name ≤ b.name
  match storeInfos.head? with
  | none => .panic
  | some first => .ok ⟨first.commitId.version,storeInfos⟩

def convertCommitInfo (commitInfo : CommitInfo) : CommitInfo where
  version := commitInfo.version
  storeInfos := commitInfo.storeInfos.map fun info =>
    ⟨info.name,info.commitId.version,info.commitId.hash⟩

/-- `VerifyChangeSetCmd` from the results of the workers in the order of their completion, with the
metadata it writes if the snapshots are saved. A store that does not exist yet has no info. -/
def verifyChangeSet (results : List (Option StoreInfo)) (saveSnapshot : Bool) :
    Outcome (CommitInfo × Option MultiTreeMetadata) :=
  let collected := results.reduceOption.foldl Collected.add {}
  (buildCommitInfo collected.storeInfos collected.lastestVersion).map fun commitInfo =>
    (commitInfo,if saveSnapshot then some { commitInfo := convertCommitInfo commitInfo } else none)

/-- The keys `s/<version>` and `s/latest`. -/
inductive MetadataKey
  | commitInfo (version : ℕ)
  | latestVersion
  deriving DecidableEq

abbrev Metadata := Finmap fun _ : MetadataKey => CommitInfo ⊕ ℕ

def writeMetadata (db : Metadata) (cInfo : CommitInfo) : Metadata :=
  (db.insert (.commitInfo cInfo.version) (.inl cInfo)).insert .latestVersion (.inr cInfo.version)

/-- `RestoreAppDBCmd`: the commit info of the snapshots in the order of the stores, and the
metadata written with it. -/
def restoreAppDB (snapshots : List StoreInfo) (db : Metadata) : Outcome (CommitInfo × Metadata) :=
  let collected := snapshots.foldl Collected.add {}
  (buildCommitInfo collected.storeInfos collected.lastestVersion).map fun commitInfo =>
    (commitInfo,writeMetadata db commitInfo)

def appHash (merkle : (Finmap fun _ : Bytes => Bytes) → Bytes) (ci : CommitInfo) : Bytes :=
  (RootMulti.convertCommitInfo ci).hash merkle

theorem storeInfos_collect (c : Collected) (infos : List StoreInfo) :
    (infos.foldl Collected.add c).storeInfos = c.storeInfos ++ infos := by
  induction infos generalizing c with
  | nil => simp
  | cons info infos ih =>
    rw [foldl_cons,ih]
    simp [Collected.add]

def sorted (infos : List StoreInfo) : List StoreInfo :=
  infos.insertionSort fun a b => a.name ≤ b.name

variable {infos order : List StoreInfo} {a : StoreInfo}

theorem mem_sorted : a ∈ sorted infos ↔ a ∈ infos :=
  mem_insertionSort _

/-- The version is that of a store with the smallest name. -/
theorem buildCommitInfo_ok (hne : infos ≠ []) (version : ℕ) :
    ∃ first ∈ infos, (∀ b ∈ infos, first.name ≤ b.name) ∧
      buildCommitInfo infos version = .ok ⟨first.commitId.version,sorted infos⟩ := by
  have hle := pairwise_insertionSort StoreInfo.name infos
  cases hsort : sorted infos with
  | nil =>
    obtain ⟨a,ha⟩ := exists_mem_of_ne_nil _ hne
    have hmem := mem_sorted.mpr ha
    rw [hsort] at hmem
    cases hmem
  | cons first rest =>
    rw [sorted] at hsort
    rw [hsort,pairwise_cons] at hle
    have hmem : ∀ b, b ∈ infos ↔ b = first ∨ b ∈ rest := fun b => by
      rw [← mem_sorted,sorted,hsort,mem_cons]
    refine ⟨first,(hmem first).mpr (.inl rfl),fun b hb => ?_,?_⟩
    · rcases (hmem b).mp hb with rfl | hb
      · exact le_rfl
      · exact hle.1 b hb
    · simp only [buildCommitInfo,hsort,head?_cons]

theorem buildCommitInfo_first {rest : List StoreInfo} (hmin : ∀ b ∈ rest, a.name ≤ b.name)
    (version : ℕ) :
    buildCommitInfo (a::rest) version = .ok ⟨a.commitId.version,sorted (a::rest)⟩ := by
  have hhead : (sorted (a::rest)).head? = some a := by
    rw [sorted,insertionSort_cons]
    cases hsort : sorted rest with
    | nil =>
      rw [sorted] at hsort
      rw [hsort]
      rfl
    | cons b bs =>
      have hb : b ∈ rest := mem_sorted.mp (hsort ▸ mem_cons_self)
      rw [sorted] at hsort
      rw [hsort,orderedInsert_cons_of_le _ bs (hmin b hb)]
      rfl
  rw [sorted] at hhead
  simp only [buildCommitInfo,hhead,sorted]

theorem lookup_insertAll (infos : List RootMulti.StoreInfo) (m : Finmap fun _ : Bytes => Bytes)
    (n : Bytes) :
    (infos.foldl (fun m info => m.insert info.name info.commitId.hash) m).lookup n =
      (((infos.filter (·.name = n)).getLast?).map (·.commitId.hash)).or (m.lookup n) := by
  induction infos generalizing m with
  | nil => rfl
  | cons info infos ih =>
    rw [foldl_cons,ih]
    by_cases hn : info.name = n
    · subst hn
      rw [Finmap.lookup_insert,filter_cons_of_pos (by simp),getLast?_cons]
      cases (infos.filter (·.name = info.name)).getLast? <;> rfl
    · rw [Finmap.lookup_insert_of_ne _ (Ne.symm hn),filter_cons_of_neg (by simpa using hn)]

/-- The map that is hashed has the last info of each name in the order of collection, since the
sort is stable. -/
theorem lookup_toMap_sorted (version : ℕ) (infos : List StoreInfo) (n : Bytes) :
    (RootMulti.convertCommitInfo ⟨version,sorted infos⟩).toMap.lookup n =
      ((infos.filter (·.name = n)).getLast?).map (·.commitId.hash.1) := by
  have hfilter : ((sorted infos).map fun info =>
        (⟨info.name,info.commitId.version,info.commitId.hash.1⟩ : RootMulti.StoreInfo)).filter
          (·.name = n) =
      (infos.filter (·.name = n)).map fun info =>
        ⟨info.name,info.commitId.version,info.commitId.hash.1⟩ := by
    have hstable : (sorted infos).filter (·.name = n) = infos.filter (·.name = n) := by
      rw [sorted]
      convert @filter_insertionSort StoreInfo Bytes StoreInfo.name _ n infos
    rw [List.filter_map,← hstable]
    rfl
  rw [RootMulti.CommitInfo.toMap,RootMulti.convertCommitInfo,lookup_insertAll,hfilter,
    getLast?_map,Option.map_map,Finmap.lookup_empty,Option.or_none]
  rfl

/-- The commit info has the largest version of the stores, and this app hash. -/
structure Good (infos : List StoreInfo)
    (hash : ((Finmap fun _ : Bytes => Bytes) → Bytes) → Bytes) (ci : CommitInfo) : Prop where
  version : IsGreatest {v | ∃ a ∈ infos, a.commitId.version = v} ci.version
  hash : ∀ merkle, appHash merkle ci = hash merkle

/-- Both commands build a commit info with the largest version, with one app hash for all orders,
and its version is the one of the metadata and the latest version that is stored. -/
def OrderFree (infos : List StoreInfo) : Prop :=
  ∃ hash,
    (∀ results : List (Option StoreInfo), results.reduceOption.Perm infos →
      ∃ ci metadata, verifyChangeSet results true = .ok (ci,some metadata) ∧
        Good infos hash ci ∧ metadata.commitInfo.version = ci.version) ∧
    (∀ snapshots : List StoreInfo, snapshots.Perm infos → ∀ db,
      ∃ ci db', restoreAppDB snapshots db = .ok (ci,db') ∧
        Good infos hash ci ∧ db'.lookup .latestVersion = some (.inr ci.version) ∧
        db'.lookup (.commitInfo ci.version) = some (.inl ci))

/-- The stores with the smallest name have the largest version. -/
def FirstIsLatest (infos : List StoreInfo) : Prop :=
  ∀ a ∈ infos, (∀ b ∈ infos, a.name ≤ b.name) → ∀ b ∈ infos, b.commitId.version ≤ a.commitId.version

def OneHash (infos : List StoreInfo) : Prop :=
  ∀ a ∈ infos, ∀ b ∈ infos, a.name = b.name → a.commitId.hash = b.commitId.hash

theorem FirstIsLatest.of_perm (h : FirstIsLatest infos) (hperm : order.Perm infos) :
    FirstIsLatest order := by
  intro a ha hmin b hb
  exact h a (hperm.mem_iff.mp ha) (fun c hc => hmin c (hperm.mem_iff.mpr hc)) b (hperm.mem_iff.mp hb)

/-- What is hashed does not depend on the order. -/
theorem toMap_of_perm (h : OneHash infos) (hperm : order.Perm infos) (v w : ℕ) :
    (RootMulti.convertCommitInfo ⟨v,sorted order⟩).toMap =
      (RootMulti.convertCommitInfo ⟨w,sorted infos⟩).toMap := by
  refine Finmap.ext_lookup fun n => ?_
  rw [lookup_toMap_sorted,lookup_toMap_sorted]
  have hfilter := hperm.filter (·.name = n)
  cases hlast : (infos.filter (·.name = n)).getLast? with
  | none =>
    rw [getLast?_eq_none_iff] at hlast
    rw [hlast,perm_nil] at hfilter
    rw [hfilter]
    rfl
  | some b =>
    have hb := mem_of_getLast? hlast
    cases hlast' : (order.filter (·.name = n)).getLast? with
    | none =>
      rw [getLast?_eq_none_iff] at hlast'
      rw [hlast'] at hfilter
      cases hfilter.mem_iff.mpr hb
    | some a =>
      have ha := hfilter.mem_iff.mp (mem_of_getLast? hlast')
      simp only [mem_filter,decide_eq_true_eq] at ha hb
      rw [Option.map_some,Option.map_some,h a ha.1 b hb.1 (ha.2.trans hb.2.symm)]

theorem good_of_perm {info : StoreInfo} (hfirst : FirstIsLatest (info::infos))
    (hhash : OneHash (info::infos)) (hperm : order.Perm (info::infos)) (version : ℕ) :
    ∃ ci, buildCommitInfo order version = .ok ci ∧
      Good (info::infos) (fun merkle => appHash merkle ⟨0,sorted (info::infos)⟩) ci := by
  have hne : order ≠ [] := by
    rintro rfl
    cases hperm.symm.eq_nil
  obtain ⟨first,hmem,hmin,hbuild⟩ := buildCommitInfo_ok hne version
  refine ⟨_,hbuild,⟨⟨first,hperm.mem_iff.mp hmem,rfl⟩,?_⟩,fun merkle => ?_⟩
  · rintro v ⟨b,hb,rfl⟩
    exact hfirst.of_perm hperm first hmem hmin b (hperm.mem_iff.mpr hb)
  · exact congrArg merkle (toMap_of_perm hhash hperm _ _)

theorem storeInfos_collected (infos : List StoreInfo) :
    (infos.foldl Collected.add {}).storeInfos = infos := by
  rw [storeInfos_collect,nil_append]

theorem OrderFree.build (h : OrderFree infos) :
    ∃ hash, ∀ order : List StoreInfo, order.Perm infos → ∀ ci,
      (∀ version, buildCommitInfo order version = .ok ci) → Good infos hash ci := by
  obtain ⟨hash,-,hrestore⟩ := h
  refine ⟨hash,fun order hperm ci hbuild => ?_⟩
  obtain ⟨ci',db',hok,hgood,-⟩ := hrestore order hperm ∅
  simp only [restoreAppDB,storeInfos_collected,hbuild,Outcome.map_ok,Outcome.ok.injEq,
    Prod.mk.injEq] at hok
  exact hok.1 ▸ hgood

theorem OrderFree.firstIsLatest (h : OrderFree infos) : FirstIsLatest infos := by
  obtain ⟨hash,hgood⟩ := h.build
  intro a ha hmin b hb
  -- The store is collected first.
  have hperm := (perm_cons_erase ha).symm
  have hrest : ∀ c ∈ infos.erase a, a.name ≤ c.name := fun c hc => hmin c (mem_of_mem_erase hc)
  exact (hgood _ hperm _ fun version => buildCommitInfo_first hrest version).version.2 ⟨b,hb,rfl⟩

theorem OrderFree.hash_eq {hash} (hgood : ∀ order : List StoreInfo, order.Perm infos → ∀ ci,
      (∀ version, buildCommitInfo order version = .ok ci) → Good infos hash ci) (ha : a ∈ infos) :
    hash (fun m => (m.lookup a.name).getD []) = a.commitId.hash.1 := by
  have hperm : (infos.erase a ++ [a]).Perm infos :=
    perm_append_singleton .. |>.trans (perm_cons_erase ha).symm
  obtain ⟨first,-,-,hbuild⟩ := buildCommitInfo_ok (append_ne_nil_of_right_ne_nil _
    (cons_ne_nil a [])) 0
  have hlookup := lookup_toMap_sorted first.commitId.version (infos.erase a ++ [a]) a.name
  rw [filter_append,filter_cons_of_pos (by simp),filter_nil,getLast?_append,
    getLast?_singleton] at hlookup
  have happ := (hgood _ hperm _ fun _ => hbuild).hash fun m => (m.lookup a.name).getD []
  rw [← happ,appHash,RootMulti.CommitInfo.hash,hlookup]
  rfl

theorem OrderFree.oneHash (h : OrderFree infos) : OneHash infos := by
  obtain ⟨hash,hgood⟩ := h.build
  intro a ha b hb hname
  have hab := OrderFree.hash_eq hgood ha
  rw [hname,OrderFree.hash_eq hgood hb] at hab
  exact Subtype.ext hab.symm

/-- The commit info of a non-empty list of stores does not depend on the order, and has the largest
version, if and only if the stores with the smallest name have the largest version and infos of one
name have one hash. -/
theorem orderFree_iff (info : StoreInfo) (infos : List StoreInfo) :
    OrderFree (info::infos) ↔ FirstIsLatest (info::infos) ∧ OneHash (info::infos) := by
  refine ⟨fun h => ⟨h.firstIsLatest,h.oneHash⟩,fun ⟨hfirst,hhash⟩ => ?_⟩
  refine ⟨fun merkle => appHash merkle ⟨0,sorted (info::infos)⟩,fun results hperm => ?_,
    fun snapshots hperm db => ?_⟩
  · obtain ⟨ci,hbuild,hgood⟩ := good_of_perm hfirst hhash hperm
      (results.reduceOption.foldl Collected.add {}).lastestVersion
    refine ⟨ci,{ commitInfo := convertCommitInfo ci },?_,hgood,rfl⟩
    simp only [verifyChangeSet,storeInfos_collected,hbuild,Outcome.map_ok,if_true]
  · obtain ⟨ci,hbuild,hgood⟩ := good_of_perm hfirst hhash hperm
      (snapshots.foldl Collected.add {}).lastestVersion
    refine ⟨ci,writeMetadata db ci,?_,hgood,?_,?_⟩
    · simp only [restoreAppDB,storeInfos_collected,hbuild,Outcome.map_ok]
    · rw [writeMetadata,Finmap.lookup_insert]
    · rw [writeMetadata,Finmap.lookup_insert_of_ne _ (by simp),Finmap.lookup_insert]

/-- The store with the smallest name has ended one version before the other. -/
theorem not_orderFree_of_early_end :
    restoreAppDB [⟨[97],1,emptyHash⟩,⟨[98],2,emptyHash⟩] ∅ =
        .ok (⟨1,[⟨[97],1,emptyHash⟩,⟨[98],2,emptyHash⟩]⟩,
          writeMetadata ∅ ⟨1,[⟨[97],1,emptyHash⟩,⟨[98],2,emptyHash⟩]⟩) ∧
      ¬ OrderFree [⟨[97],1,emptyHash⟩,⟨[98],2,emptyHash⟩] := by
  refine ⟨rfl,fun h => ?_⟩
  have hle := h.firstIsLatest ⟨[97],1,emptyHash⟩ (by simp) (by decide) ⟨[98],2,emptyHash⟩ (by simp)
  exact absurd hle (by decide)

end Memiavl.Client
