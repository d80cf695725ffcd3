import Memiavl.ImportRun
import Memiavl.Library.FileTree

/-! The paths that a restore writes to. The names of the stores come from the stream and are
joined to the temporary directory of the new snapshot. The lock file, which is there before and
removed behind, is left out, and so is the rename at the end. -/
namespace Memiavl

open FileTree List

def SnapshotPrefix : Bytes := [115,110,97,112,115,104,111,116,45]

def TmpSuffix : Bytes := [45,116,109,112]

def FileNameNodes : Bytes := [110,111,100,101,115]

def FileNameLeaves : Bytes := [108,101,97,118,101,115]

def FileNameKVs : Bytes := [107,118,115]

/-- The version of a snapshot stands in its name with twenty digits. -/
def snapshotName (version : ℕ) : Bytes :=
  SnapshotPrefix ++ (List.range 20).reverse.map fun i => .ofNat (48+version/10^i%10)

def tmpDir (dir : Path) (height : ℕ) : Path := dir ++ [snapshotName height ++ TmpSuffix]

def createFiles (fs : FileTree) (p : Path) : FileTree × Option String :=
  match fs.mkdirAll p with
  | (fs,some err) => (fs,some err)
  | (fs,none) =>
    fs.writeFiles [(p ++ [FileNameNodes],[]),(p ++ [FileNameLeaves],[]),(p ++ [FileNameKVs],[])]

/-- The importer of all trees, with the files; of the tree in work it knows the directory, the
nodes that were sent, and how the creation of its files has ended. -/
structure FileImporter where
  files : FileTree
  importer : Option (Path × List ExportNode × Option String) := none

def resultOf : Option String → Outcome Unit
  | none => .ok ()
  | some err => .error err

namespace FileImporter

/-- `Close` of the importer in work. What a failed import has flushed before is left out. -/
def close (m : FileImporter) (height : ℕ) : FileTree × Outcome Unit :=
  match m.importer with
  | none => (m.files,.ok ())
  | some (_,_,some err) => (m.files,.error err)
  | some (p,nodes,none) =>
    match doImport height nodes with
    | .panic => (m.files,.panic)
    | .error err => (m.files,.error err)
    | .ok f =>
      let r := m.files.writeFiles [(p ++ [FileNameNodes],f.nodes),(p ++ [FileNameLeaves],f.leaves),
        (p ++ [FileNameKVs],f.kvs),(p ++ [FileNameMetadata],f.metadata)]
      (r.1,resultOf r.2)

variable (marshal : FileTree → Outcome Bytes) (dir : Path) (height : ℕ)

/-- `Finalize` up to the rename. The metadata are what `marshal` makes of the files. -/
def finalize (m : FileImporter) : FileTree × Outcome Unit :=
  match m.close height with
  | (fs,.ok ()) =>
    match marshal fs with
    | .ok bz =>
      let r := fs.writeFile (tmpDir dir height ++ [MetadataFileName]) bz
      (r.1,resultOf r.2)
    | .error err => (fs,.error err)
    | .panic => (fs,.panic)
  | (fs,r) => (fs,r)

def fail (m : FileImporter) (err : String) : FileTree × Outcome Unit :=
  match m.close height with
  | (fs,.panic) => (fs,.panic)
  | (fs,_) => (fs,.error err)

def restoreLoop (m : FileImporter) : List SnapshotItem → FileTree × Outcome Unit
  | [] => m.finalize marshal dir height
  | item::items =>
    match item.use with
    | .add node =>
      match m.importer with
      | none => (m.files,.panic)
      | some (p,nodes,err) => restoreLoop { m with importer := some (p,nodes ++ [node],err) } items
    | .close (.addTree name) =>
      match m.close height with
      | (fs,.ok ()) =>
        let p := join (tmpDir dir height) name
        let r := createFiles fs p
        restoreLoop ⟨r.1,some (p,[],r.2)⟩ items
      | (fs,r) => (fs,r)
    | .close (.finalize _) => m.finalize marshal dir height
    | .close (.fail err) => m.fail height err

end FileImporter

def restoreFiles (marshal : FileTree → Outcome Bytes) (dir : Path) (height : ℕ) (fs : FileTree)
    (items : List SnapshotItem) : FileTree × Outcome Unit :=
  if height > maxUint32 then (fs,.error s!"version overflows uint32: {height}")
  else FileImporter.restoreLoop marshal dir height ⟨fs,none⟩ items

/-- A directory of a tree that leads to no write outside the temporary directory: it lies in
there; or a name on the way is refused before anything is made; or the first file to create is a
directory above `dir`. -/
def StaysInside (dir : Path) (height : ℕ) (p : Path) : Prop :=
  tmpDir dir height <+: p ∨
    (¬p.all ValidName ∧ p.takeWhile ValidName <+: dir) ∨ p ++ [FileNameNodes] <+: dir

instance (dir : Path) (height : ℕ) (p : Path) : Decidable (StaysInside dir height p) := by
  unfold StaysInside
  infer_instance

section
variable {dir : Path} {height : ℕ} {fs : FileTree}

def Inside (dir : Path) (height : ℕ) (p : Path) : Prop := tmpDir dir height <+: p

instance (dir : Path) (height : ℕ) (p : Path) : Decidable (Inside dir height p) :=
  inferInstanceAs (Decidable (tmpDir dir height <+: p))

theorem not_inside_of_above {q : Path} (hq : q <+: dir) : ¬Inside dir height q := by
  intro h
  have hlen := (h.trans hq).length_le
  simp [tmpDir] at hlen

theorem hasDir_of_same {fs' : FileTree} (hdir : fs.HasDir dir)
    (h : SameUnless (Inside dir height) fs fs') : fs'.HasDir dir :=
  hdir.congr h fun _ hq => not_inside_of_above hq

theorem createFiles_spec (hdir : fs.HasDir dir) {p : Path} (hname : StaysInside dir height p) :
    SameUnless (Inside dir height) fs (createFiles fs p).1 ∧
      ((createFiles fs p).2 = none → Inside dir height p) := by
  have hmk : SameUnless (Inside dir height) fs (fs.mkdirAll p).1 := by
    refine sameUnless_mkdirFrom fun q hq _ => ?_
    rw [nil_append]
    rcases hname with h | ⟨-,h⟩ | h
    · have hqp : q <+: p := hq.trans <| takeWhile_prefix _
      rcases prefix_or_prefix_of_prefix hqp h with hq | hq
      · rcases prefix_concat_iff.mp hq with rfl | hq
        · exact .inr prefix_rfl
        · exact .inl (hdir q hq)
      · exact .inr hq
    · exact .inl (hdir q (hq.trans h))
    · refine .inl (hdir q ?_)
      exact (hq.trans <| takeWhile_prefix _).trans ((prefix_append ..).trans h)
  unfold createFiles
  split <;> rename_i heq <;> rw [heq] at hmk
  · exact ⟨hmk,by simp⟩
  · rename_i fs₁
    rcases hname with h | ⟨hbad,-⟩ | h
    · refine ⟨hmk.trans (.writeFiles fs₁ ?_),fun _ => h⟩
      intro f hf
      simp only [mem_cons,not_mem_nil,or_false] at hf
      rcases hf with rfl | rfl | rfl <;> exact h.trans (prefix_append ..)
    · exact absurd (mkdirFrom_valid (p := []) (by rw [← mkdirAll,heq])) hbad
    · have hfirst : fs₁ (p ++ [FileNameNodes]) = some .dir := hasDir_of_same hdir hmk _ h
      have hfail : ∀ l, fs₁.writeFiles ((p ++ [FileNameNodes],[])::l) =
          (fs₁,some "is a directory") := by
        intro l
        simp [writeFiles,writeFile,hfirst]
      rw [hfail]
      exact ⟨hmk,by simp⟩

/-- Only files below the temporary directory are written by the importer in work. -/
structure FileImporter.Confined (dir : Path) (height : ℕ) (fs : FileTree) (m : FileImporter) : Prop
    where
  same : SameUnless (Inside dir height) fs m.files
  below : ∀ p nodes, m.importer = some (p,nodes,none) → Inside dir height p

namespace FileImporter.Confined
variable {m : FileImporter} (hm : m.Confined dir height fs)
include hm

theorem close : SameUnless (Inside dir height) fs (m.close height).1 := by
  unfold FileImporter.close
  split
  · exact hm.same
  · exact hm.same
  · rename_i p nodes hp
    split
    · exact hm.same
    · exact hm.same
    · refine hm.same.trans (.writeFiles m.files ?_)
      intro f hf
      simp only [mem_cons,not_mem_nil,or_false] at hf
      have h := hm.below p nodes hp
      rcases hf with rfl | rfl | rfl | rfl <;> exact h.trans (prefix_append ..)

theorem finalize (marshal : FileTree → Outcome Bytes) :
    SameUnless (Inside dir height) fs (m.finalize marshal dir height).1 := by
  have hclose := hm.close
  unfold FileImporter.finalize
  split <;> rename_i heq <;> rw [heq] at hclose
  · split
    · exact hclose.trans (.writeFile _ (prefix_append ..) _)
    · exact hclose
    · exact hclose
  · exact hclose

theorem fail (err : String) : SameUnless (Inside dir height) fs (m.fail height err).1 := by
  have hclose := hm.close
  unfold FileImporter.fail
  split <;> rename_i heq <;> rw [heq] at hclose <;> exact hclose

end FileImporter.Confined

theorem use_addTree {item : SnapshotItem} {name : Bytes}
    (h : item.use = .close (.addTree name)) : item = .store name := by
  cases item with
  | store name' =>
    cases h
    rfl
  | iavl key value version height =>
    simp only [SnapshotItem.use] at h
    split at h <;> cases h
  | extension => cases h
  | invalid err => cases h

/-- Each store of the stream stays inside, so the whole restore does. -/
theorem FileImporter.Confined.restoreLoop {m : FileImporter} (hdir : fs.HasDir dir)
    (hm : m.Confined dir height fs) (marshal : FileTree → Outcome Bytes) {items : List SnapshotItem}
    (hitems : ∀ name, .store name ∈ items → StaysInside dir height (join (tmpDir dir height) name)) :
    SameUnless (Inside dir height) fs (m.restoreLoop marshal dir height items).1 := by
  induction items generalizing m with
  | nil => exact hm.finalize marshal
  | cons item items ih =>
    have hrest : ∀ name, .store name ∈ items →
        StaysInside dir height (join (tmpDir dir height) name) :=
      fun name h => hitems name (by simp [h])
    rw [FileImporter.restoreLoop]
    split
    · rename_i node huse
      split
      · exact hm.same
      · rename_i p nodes err himporter
        refine ih ⟨hm.same,fun p' nodes' h => ?_⟩ hrest
        cases h
        exact hm.below _ _ himporter
    · rename_i name huse
      have hclose := hm.close
      split <;> rename_i heq <;> rw [heq] at hclose
      · have hname := hitems name (by simp [use_addTree huse])
        obtain ⟨hsame,hbelow⟩ := createFiles_spec (hasDir_of_same hdir hclose) hname
        refine ih ⟨hclose.trans hsame,fun p nodes h => ?_⟩ hrest
        simp only [Option.some.injEq,Prod.mk.injEq] at h
        obtain ⟨rfl,-,hnone⟩ := h
        exact hbelow hnone
      · exact hclose
    · exact hm.finalize marshal
    · exact hm.fail _

end

section
variable {dir : Path} {height : ℕ}

/-- The tree that only has the way to `dir`. -/
def bareTree (dir : Path) : FileTree := fun p => if p <+: dir then some .dir else none

theorem onlyDirs_bareTree (dir : Path) : (bareTree dir).OnlyDirs := by
  intro q
  unfold bareTree
  split
  · exact .inr rfl
  · exact .inl rfl

theorem hasDir_bareTree (dir : Path) : (bareTree dir).HasDir dir := fun _ hq => if_pos hq

theorem tmpDir_ne_nodes (p : Path) : tmpDir dir height ≠ p ++ [FileNameNodes] := by
  intro h
  have hlast := append_inj_right' h rfl
  have hlen : (snapshotName height ++ TmpSuffix).length = FileNameNodes.length := by
    rw [singleton_inj.mp hlast]
  simp [snapshotName,SnapshotPrefix,TmpSuffix,FileNameNodes] at hlen

/-- A directory that does not stay inside makes an entry outside. -/
theorem createFiles_escapes {p : Path} (hp : ¬StaysInside dir height p) :
    ∃ q, ¬Inside dir height q ∧ bareTree dir q = none ∧ (createFiles (bareTree dir) p).1 q ≠ none := by
  unfold StaysInside at hp
  push Not at hp
  obtain ⟨hout,hrefused,hnodes⟩ := hp
  have honly := onlyDirs_bareTree dir
  have hext : Extends ((bareTree dir).mkdirAll p).1 (createFiles (bareTree dir) p).1 := by
    unfold createFiles
    split <;> rename_i heq <;> rw [heq]
    · exact fun _ h => h
    · exact extends_writeFiles _ _
  by_cases hvalid : p.all ValidName
  · -- All directories are made, and the first file is created in the last of them.
    refine ⟨p ++ [FileNameNodes],?_,if_neg hnodes,?_⟩
    · intro h
      rcases prefix_concat_iff.mp h with h | h
      · exact tmpDir_ne_nodes p h
      · exact hout h
    · have hnone : ((bareTree dir).mkdirAll p).2 = none := honly.mkdirFrom_none hvalid
      have hfree : ((bareTree dir).mkdirAll p).1 (p ++ [FileNameNodes]) = none := by
        have hsame : SameUnless (· <+: p) (bareTree dir) ((bareTree dir).mkdirAll p).1 :=
          sameUnless_mkdirFrom fun q hq _ => .inr (by
            rw [nil_append]
            exact hq.trans <| takeWhile_prefix _)
        rw [hsame _ fun h => by simpa using h.length_le]
        exact if_neg hnodes
      unfold createFiles
      split <;> rename_i heq <;> rw [heq] at hnone hfree
      · cases hnone
      · rename_i fs₁
        have hwrite : fs₁.writeFile (p ++ [FileNameNodes]) [] =
            (fs₁.put (p ++ [FileNameNodes]) (.file []),none) := by
          simp only at hfree
          simp [writeFile,hfree]
        rw [writeFiles]
        simp only [hwrite]
        exact extends_writeFiles _ _ _ (by simp [put])
  · -- The directories before the refused name are made.
    have hmade := hrefused hvalid
    refine ⟨p.takeWhile ValidName,?_,if_neg hmade,hext _ ?_⟩
    · exact fun h => hout (h.trans <| takeWhile_prefix _)
    · have hne : p.takeWhile ValidName ≠ [] := fun h => hmade (h ▸ nil_prefix)
      have h := honly.mkdirFrom (p := []) _ prefix_rfl hne
      rw [nil_append] at h
      rw [mkdirAll,h]
      simp

theorem extends_close (m : FileImporter) (height : ℕ) : Extends m.files (m.close height).1 := by
  unfold FileImporter.close
  split
  · exact fun _ h => h
  · exact fun _ h => h
  · split
    · exact fun _ h => h
    · exact fun _ h => h
    · exact extends_writeFiles _ _

theorem extends_finalize (marshal : FileTree → Outcome Bytes) (m : FileImporter) :
    Extends m.files (m.finalize marshal dir height).1 := by
  have hclose := extends_close m height
  unfold FileImporter.finalize
  split <;> rename_i heq <;> rw [heq] at hclose
  · split
    · exact hclose.trans (extends_writeFile _ _ _)
    · exact hclose
    · exact hclose
  · exact hclose

end

/-- Restoring streams with store names from a set, into any tree of files with the directory,
writes only below the temporary directory exactly when every name in the set stays inside. -/
theorem restoreFiles_confined_iff (marshal : FileTree → Outcome Bytes) (dir : Path) (height : ℕ)
    (names : Set Bytes) :
    (∀ fs items, FileTree.HasDir fs dir → (∀ name, .store name ∈ items → name ∈ names) →
      SameUnless (Inside dir height) fs (restoreFiles marshal dir height fs items).1) ↔
    maxUint32 < height ∨
      ∀ name ∈ names, StaysInside dir height (join (tmpDir dir height) name) := by
  by_cases hh : maxUint32 < height
  · simp only [hh,true_or,iff_true]
    intro fs items _ _
    rw [restoreFiles,if_pos hh]
    exact .refl _ fs
  simp only [hh,false_or]
  constructor
  · intro h name hname
    by_contra hescape
    obtain ⟨q,hq,hnone,hsome⟩ := createFiles_escapes hescape
    have hsame := h (bareTree dir) [.store name] (hasDir_bareTree dir) (by simp [hname]) q hq
    rw [restoreFiles,if_neg hh,hnone] at hsame
    exact extends_finalize marshal _ q hsome hsame
  · intro h fs items hdir hitems
    rw [restoreFiles,if_neg hh]
    refine FileImporter.Confined.restoreLoop hdir ⟨.refl _ fs,by simp⟩ marshal ?_
    exact fun name hname => h name (hitems name hname)

/-- `../snapshot-00000000000000000001/bank`. -/
def escapingName : Bytes := [46,46,47] ++ snapshotName 1 ++ [47,98,97,110,107]

/-- Restoring at height 2 a stream with one store empties the nodes file of a tree of the
snapshot at version 1. -/
theorem restore_empties_snapshot :
    let file : Path := [[100],snapshotName 1,[98,97,110,107],FileNameNodes]
    let fs : FileTree := fun p =>
      if p = file then some (.file [7]) else if p <+: file then some .dir else none
    fs.HasDir [[100]] ∧ ¬Inside [[100]] 2 file ∧ fs file = some (.file [7]) ∧
      (restoreFiles (fun _ => .ok []) [[100]] 2 fs [.store escapingName]).1 file =
        some (.file []) := by
  intro file fs
  refine ⟨?_,by decide,by simp [fs],?_⟩
  · intro q hq
    have hne : q ≠ file := by
      rintro rfl
      exact absurd hq (by decide)
    have habove : q <+: file := hq.trans (by decide)
    simp only [fs,if_neg hne,if_pos habove]
  · decide +kernel

end Memiavl
