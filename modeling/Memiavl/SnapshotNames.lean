import Memiavl.ImportPath
import Memiavl.Prune

/-! The names of the snapshot directories and the walk over them. A directory can be read, and its
entries come in the order of their names. -/
namespace Memiavl

open List

structure DirEntry where
  name : Bytes
  isDir : Bool
  deriving DecidableEq

/-- What `ReadDir` gives. -/
structure Directory where
  entries : List DirEntry
  sorted : (entries.map DirEntry.name).Pairwise (· < ·)

inductive NumError
  | invalidSyntax
  | outOfRange
  deriving DecidableEq

inductive SnapshotError
  /-- `invalid snapshot name`, for a name of another form. -/
  | otherName (name : Bytes)
  /-- `snapshot version overflows`. -/
  | overflows (num : Bytes) (err : NumError)
  /-- `invalid snapshot name`, for a directory with a name of the form. -/
  | invalidName (err : SnapshotError)
  /-- `target version is pruned`. -/
  | pruned (targetVersion : UInt32)
  | callback (text : String)
  deriving DecidableEq

/-- The loop of `ParseUint` with base 10 and 32 bits. -/
def parseUintFrom (n : ℕ) : Bytes → Except NumError ℕ
  | [] => .ok n
  | c::cs =>
    if c < 48 ∨ 57 < c then .error .invalidSyntax
    else if 2^32 ≤ n*10+(c.toNat-48) then .error .outOfRange
    else parseUintFrom (n*10+(c.toNat-48)) cs

def parseInt (s : Bytes) : Except NumError ℤ :=
  let neg := s.head? = some 45
  let digits := if s.head? = some 43 ∨ neg then s.tail else s
  if digits = [] then .error .invalidSyntax
  else
    match parseUintFrom 0 digits with
    | .error err => .error err
    | .ok un =>
      if ¬neg ∧ 2^31 ≤ un ∨ neg ∧ 2^31 < un then .error .outOfRange
      else .ok (if neg then -un else un)

/-- The loop over the entries: the state and the error at the end. -/
def walk {α σ ε : Type} (process : α → σ → σ × Bool × Option ε) : List α → σ → σ × Option ε
  | [],s => (s,none)
  | x::xs,s =>
    let (s,stop,err) := process x s
    if stop ∨ err.isSome then (s,err) else walk process xs s

namespace Directory

def SnapshotDirLen : ℕ := SnapshotPrefix.length+20

def isSnapshotName (name : Bytes) : Bool :=
  SnapshotPrefix.isPrefixOf name && name.length == SnapshotDirLen

def parseVersion (name : Bytes) : Except SnapshotError ℤ :=
  if !isSnapshotName name then .error (.otherName name)
  else
    match parseInt (name.drop SnapshotPrefix.length) with
    | .error err => .error (.overflows (name.drop SnapshotPrefix.length) err)
    | .ok v => .ok v

variable {σ : Type}

def process (callback : ℤ → σ → σ × Bool × Option SnapshotError) (entry : DirEntry) (s : σ) :
    σ × Bool × Option SnapshotError :=
  if !entry.isDir || !isSnapshotName entry.name then (s,false,none)
  else
    match parseVersion entry.name with
    | .error err => (s,true,some (.invalidName err))
    | .ok version => callback version s

def traverseSnapshots (dir : Directory) (ascending : Bool)
    (callback : ℤ → σ → σ × Bool × Option SnapshotError) (s : σ) : σ × Option SnapshotError :=
  walk (process callback) (if ascending then dir.entries else dir.entries.reverse) s

/-- What `seekSnapshot` does with a version; the state is the version that it has found. -/
def seek (targetVersion : UInt32) (version : ℤ) (found : Option ℤ) :
    Option ℤ × Bool × Option SnapshotError :=
  if version ≤ targetVersion.toNat then (some version,true,none) else (found,false,none)

def seekSnapshot (dir : Directory) (targetVersion : UInt32) : Except SnapshotError ℤ :=
  match dir.traverseSnapshots false (seek targetVersion) none with
  | (_,some err) => .error err
  | (none,none) => .error (.pruned targetVersion)
  | (some version,none) => .ok version

end Directory

/-- The last `k` digits of a number. -/
def digits (k v : ℕ) : Bytes := (List.range k).reverse.map fun i => .ofNat (48+v/10^i%10)

theorem digits_succ (k v : ℕ) : digits (k+1) v = .ofNat (48+v/10^k%10)::digits k v := by
  simp [digits,range_succ]

@[simp] theorem length_digits (k v : ℕ) : (digits k v).length = k := by simp [digits]

theorem mod_pow_succ (v k : ℕ) : v%10^(k+1) = v/10^k%10*10^k+v%10^k := by
  rw [pow_succ,Nat.mod_mul,Nat.mul_comm,Nat.add_comm]

theorem toNat_digit (v k : ℕ) : (UInt8.ofNat (48+v/10^k%10)).toNat = 48+v/10^k%10 := by
  have := Nat.mod_lt (v/10^k) (by decide : 10 > 0)
  rw [UInt8.toNat_ofNat']
  omega

theorem parseUintFrom_digits (n k v : ℕ) (hn : n < 2^32) : parseUintFrom n (digits k v) =
    if n*10^k+v%10^k < 2^32 then .ok (n*10^k+v%10^k) else .error .outOfRange := by
  induction k generalizing n with
  | zero =>
    rw [pow_zero,Nat.mod_one,Nat.mul_one,Nat.add_zero,if_pos hn]
    rfl
  | succ k ih =>
    have hlt := Nat.mod_lt (v/10^k) (by decide : 10 > 0)
    have hvalue : n*10^(k+1)+v%10^(k+1) = (n*10+v/10^k%10)*10^k+v%10^k := by
      rw [mod_pow_succ]
      ring
    have hdigit : ¬(UInt8.ofNat (48+v/10^k%10) < 48 ∨ 57 < UInt8.ofNat (48+v/10^k%10)) := by
      simp only [UInt8.lt_iff_toNat_lt,toNat_digit,UInt8.reduceToNat]
      omega
    rw [digits_succ,parseUintFrom,if_neg hdigit,toNat_digit,Nat.add_sub_cancel_left,hvalue]
    split_ifs with hle
    · rename_i hlt'
      have := Nat.le_mul_of_pos_right (n*10+v/10^k%10) (Nat.pow_pos (by decide : 0 < 10) (n := k))
      omega
    · rfl
    · rw [ih _ (by omega),if_pos ‹_›]
    · rw [ih _ (by omega),if_neg ‹_›]

theorem digits_lt_iff (k v w : ℕ) : digits k v < digits k w ↔ v%10^k < w%10^k := by
  induction k with
  | zero => simp [digits,Nat.mod_one]
  | succ k ih =>
    have hv := Nat.mod_lt v (Nat.pow_pos (by decide : 0 < 10) (n := k))
    have hw := Nat.mod_lt w (Nat.pow_pos (by decide : 0 < 10) (n := k))
    rw [digits_succ,digits_succ,cons_lt_cons_iff,ih,UInt8.lt_iff_toNat_lt,← UInt8.toNat_inj,
      toNat_digit,toNat_digit,mod_pow_succ,mod_pow_succ]
    generalize v/10^k%10 = a
    generalize w/10^k%10 = b
    constructor
    · rintro (h | ⟨h,hlt⟩)
      · have : (a+1)*10^k ≤ b*10^k := Nat.mul_le_mul_right _ (by omega)
        rw [Nat.add_mul] at this
        omega
      · rw [show a = b by omega]
        omega
    · intro h
      rcases lt_trichotomy a b with hab | rfl | hab
      · exact .inl (by omega)
      · exact .inr ⟨rfl,by omega⟩
      · have : (b+1)*10^k ≤ a*10^k := Nat.mul_le_mul_right _ (by omega)
        rw [Nat.add_mul] at this
        omega

theorem snapshotName_eq (v : ℕ) : snapshotName v = SnapshotPrefix ++ digits 20 v := rfl

theorem snapshotName_lt_iff {v w : ℕ} (hv : v < 10^20) (hw : w < 10^20) :
    snapshotName v < snapshotName w ↔ v < w := by
  have hdigits := digits_lt_iff 20 v w
  rw [Nat.mod_eq_of_lt hv,Nat.mod_eq_of_lt hw] at hdigits
  simpa [snapshotName_eq,SnapshotPrefix] using hdigits

theorem snapshotName_injective {v w : ℕ} (hv : v < 10^20) (hw : w < 10^20)
    (h : snapshotName v = snapshotName w) : v = w := by
  have hvw := (snapshotName_lt_iff hv hw).not.mp h.not_lt
  have hwv := (snapshotName_lt_iff hw hv).not.mp h.not_gt
  omega

namespace Directory

theorem isSnapshotName_snapshotName (v : ℕ) : isSnapshotName (snapshotName v) = true := by
  simp [isSnapshotName,snapshotName_eq,SnapshotDirLen]

theorem parseInt_digits {v : ℕ} (hv : v < 10^20) : parseInt (digits 20 v) =
    if v < 2^31 then .ok v else .error .outOfRange := by
  have hne : ∀ c : UInt8, c < 48 → ((digits 20 v).head? = some c) = False := by
    intro c hc
    rw [digits_succ,head?_cons,Option.some_inj,eq_iff_iff,iff_false]
    rintro rfl
    rw [UInt8.lt_iff_toNat_lt,toNat_digit] at hc
    simp at hc
  have hnil : digits 20 v ≠ [] := by
    rw [digits_succ]
    exact cons_ne_nil _ _
  simp only [parseInt,hne 45 (by decide),hne 43 (by decide),or_self,if_false,if_neg hnil,
    parseUintFrom_digits 0 20 v (by decide),Nat.mod_eq_of_lt hv,Nat.zero_mul,Nat.zero_add,
    not_false_eq_true,true_and,false_and,or_false]
  by_cases hlt : v < 2^31
  · rw [if_pos hlt,if_pos (by omega)]
    exact if_neg (by omega)
  · rw [if_neg hlt]
    split_ifs with hlt'
    · exact if_pos (by omega)
    · rfl

theorem parseVersion_snapshotName {v : ℕ} (hv : v < 10^20) : parseVersion (snapshotName v) =
    if v < 2^31 then .ok v else .error (.overflows (digits 20 v) .outOfRange) := by
  have hdrop : (snapshotName v).drop SnapshotPrefix.length = digits 20 v := by
    rw [snapshotName_eq,drop_left]
  simp only [parseVersion,isSnapshotName_snapshotName,hdrop,parseInt_digits hv]
  split_ifs <;> simp_all

/-- A directory with a name of the form. -/
def Named (entry : DirEntry) : Prop := entry.isDir = true ∧ isSnapshotName entry.name = true

instance (entry : DirEntry) : Decidable (Named entry) := inferInstanceAs (Decidable (_ ∧ _))

variable {dir : Directory} {versions : List ℕ} {σ : Type}

theorem process_other (callback : ℤ → σ → σ × Bool × Option SnapshotError) {e : DirEntry}
    (he : ¬Named e) (s : σ) : process callback e s = (s,false,none) := by
  rw [process,if_pos]
  rw [Named,not_and_or] at he
  simpa using he

/-- The walk over entries is one over the versions in the names. -/
theorem walk_process (callback : ℤ → σ → σ × Bool × Option SnapshotError) {entries : List DirEntry}
    {vs : List ℕ} (h : entries.filter Named = vs.map fun v => ⟨snapshotName v,true⟩)
    (hvs : ∀ v ∈ vs, v < 2^31) (s : σ) :
    walk (process callback) entries s = walk (fun v : ℕ => callback v) vs s := by
  induction entries generalizing vs s with
  | nil =>
    rw [filter_nil,eq_comm,map_eq_nil_iff] at h
    rw [h]
    rfl
  | cons e es ih =>
    by_cases he : Named e
    · rw [filter_cons_of_pos (by simpa using he)] at h
      obtain _ | ⟨v,vs⟩ := vs
      · cases h
      · obtain ⟨rfl,htail⟩ := cons.inj h
        have hv := hvs v mem_cons_self
        have hprocess : process callback ⟨snapshotName v,true⟩ s = callback v s := by
          rw [process,if_neg (by simp [isSnapshotName_snapshotName]),
            parseVersion_snapshotName (by omega),if_pos hv]
        simp only [walk,hprocess]
        rw [ih htail fun w hw => hvs w (mem_cons_of_mem _ hw)]
    · rw [filter_cons_of_neg (by simpa using he)] at h
      simp only [walk,process_other callback he]
      exact ih h hvs s

theorem walk_seek (targetVersion : UInt32) {vs : List ℕ} (hvs : ∀ v ∈ vs, v < 2^31) :
    walk (fun v : ℕ => seek targetVersion v) vs none =
      ((Disk.seekIn targetVersion.toNat vs).toOption.map Nat.cast,none) := by
  induction vs with
  | nil => rfl
  | cons v vs ih =>
    have hparse : Memiavl.parseVersion v = .ok v := if_pos (hvs v mem_cons_self)
    rw [walk,Disk.seekIn,hparse,seek]
    by_cases hv : v ≤ targetVersion.toNat
    · simp [hv,Except.toOption]
    · simp [hv,ih fun w hw => hvs w (mem_cons_of_mem _ hw)]

/-- A walk that counts what it sees. -/
theorem walk_count {entries : List DirEntry} {n m : ℕ}
    (h : walk (process fun _ n => (n+1,false,none)) entries n = (m,none)) :
    m = n+(entries.filter Named).length ∧
      ∀ e ∈ entries, Named e → ∃ v, parseVersion e.name = .ok v := by
  induction entries generalizing n with
  | nil =>
    cases h
    simp
  | cons e es ih =>
    rw [forall_mem_cons]
    by_cases he : Named e
    · cases hv : parseVersion e.name with
      | error err => simp [walk,process,he.1,he.2,hv] at h
      | ok v =>
        simp only [walk,process,he.1,he.2,hv,Bool.not_true,Bool.or_self,Bool.false_eq_true,if_false,
          Option.isSome_none,or_self] at h
        obtain ⟨hm,hes⟩ := ih h
        rw [filter_cons_of_pos (by simpa using he),length_cons]
        exact ⟨by omega,fun _ => ⟨v,rfl⟩,hes⟩
    · simp only [walk,process_other _ he] at h
      obtain ⟨hm,hes⟩ := ih h
      rw [filter_cons_of_neg (by simpa using he)]
      exact ⟨hm,fun hx => absurd hx he,hes⟩

/-- The traversals and the search do what they are for, with these snapshots. -/
structure Visits (dir : Directory) (versions : List ℕ) : Prop where
  walks : ∀ (σ : Type) (callback : ℤ → σ → σ × Bool × Option SnapshotError) (s : σ),
    dir.traverseSnapshots true callback s = walk (fun v : ℕ => callback v) versions s ∧
      dir.traverseSnapshots false callback s = walk (fun v : ℕ => callback v) versions.reverse s
  seeks : ∀ targetVersion : UInt32, (∀ v : ℕ, dir.seekSnapshot targetVersion = .ok v ↔
      v ∈ versions ∧ v ≤ targetVersion.toNat ∧ ∀ w ∈ versions, w ≤ targetVersion.toNat → w ≤ v) ∧
    ((∀ v ∈ versions, targetVersion.toNat < v) →
      dir.seekSnapshot targetVersion = .error (.pruned targetVersion))

/-- The directories with a name of the form are snapshots of versions below `2^31`. -/
def Proper (dir : Directory) : Prop :=
  ∀ e ∈ dir.entries, Named e → ∃ v < 2^31, e.name = snapshotName v

theorem nodup_entries (dir : Directory) : dir.entries.Nodup :=
  Nodup.of_map _ (dir.sorted.imp ne_of_lt)

theorem pairwise_snapshotName (hsorted : versions.Pairwise (· < ·)) (hv : ∀ v ∈ versions, v < 2^32) :
    ((versions.map fun v => (⟨snapshotName v,true⟩ : DirEntry)).map DirEntry.name).Pairwise
      (· < ·) := by
  rw [map_map,pairwise_map]
  refine hsorted.imp_of_mem fun {v w} hvm hwm h => ?_
  have := hv v hvm
  have := hv w hwm
  exact (snapshotName_lt_iff (by omega) (by omega)).mpr h

/-- The snapshots among the entries, in their order. -/
theorem filter_named (hsorted : versions.Pairwise (· < ·))
    (hmem : ∀ v, v ∈ versions ↔ v < 2^32 ∧ ⟨snapshotName v,true⟩ ∈ dir.entries)
    (hproper : dir.Proper) :
    dir.entries.filter Named = versions.map fun v => ⟨snapshotName v,true⟩ := by
  have hnew := pairwise_snapshotName hsorted fun v hv => ((hmem v).mp hv).1
  have hold := dir.sorted.sublist ((filter_sublist (p := Named)).map DirEntry.name)
  have hperm : dir.entries.filter Named ~ versions.map fun v => ⟨snapshotName v,true⟩ := by
    refine (perm_ext_iff_of_nodup (dir.nodup_entries.filter _)
      (Nodup.of_map _ (hnew.imp ne_of_lt))).mpr fun e => ?_
    rw [mem_filter,decide_eq_true_iff,List.mem_map]
    constructor
    · rintro ⟨he,hnamed⟩
      obtain ⟨v,hv,hname⟩ := hproper e he hnamed
      obtain ⟨name,isDir⟩ := e
      obtain ⟨rfl,-⟩ := hnamed
      subst hname
      exact ⟨v,(hmem v).mpr ⟨by omega,he⟩,rfl⟩
    · rintro ⟨v,hv,rfl⟩
      exact ⟨((hmem v).mp hv).2,rfl,isSnapshotName_snapshotName v⟩
  refine hperm.eq_of_pairwise (fun a b _ _ hab hba => ?_) (pairwise_map.mp hold)
    (pairwise_map.mp hnew)
  exact absurd hab hba.not_gt

theorem Proper.lt (hproper : dir.Proper) {v : ℕ} (hv : v < 2^32)
    (he : ⟨snapshotName v,true⟩ ∈ dir.entries) : v < 2^31 := by
  obtain ⟨w,hw,hname⟩ := hproper _ he ⟨rfl,isSnapshotName_snapshotName v⟩
  have := snapshotName_injective (by omega) (by omega) hname
  omega

theorem Proper.visits (hsorted : versions.Pairwise (· < ·))
    (hmem : ∀ v, v ∈ versions ↔ v < 2^32 ∧ ⟨snapshotName v,true⟩ ∈ dir.entries)
    (hproper : dir.Proper) : dir.Visits versions := by
  have hfilter := filter_named hsorted hmem hproper
  have hlt : ∀ v ∈ versions, v < 2^31 := fun v hv =>
    hproper.lt ((hmem v).mp hv).1 ((hmem v).mp hv).2
  have hdown : ∀ (σ : Type) (callback : ℤ → σ → σ × Bool × Option SnapshotError) (s : σ),
      dir.traverseSnapshots false callback s =
        walk (fun v : ℕ => callback v) versions.reverse s := by
    intro σ callback s
    refine walk_process callback ?_ (by simpa using hlt) s
    rw [if_neg (by simp),filter_reverse,hfilter,map_reverse]
  refine ⟨fun σ callback s => ⟨walk_process callback hfilter hlt s,hdown σ callback s⟩,
    fun targetVersion => ?_⟩
  rw [seekSnapshot,hdown,walk_seek _ (by simpa using hlt)]
  cases hin : Disk.seekIn targetVersion.toNat versions.reverse with
  | error e =>
    refine ⟨fun v => ?_,fun _ => rfl⟩
    rw [← Disk.seekIn_reverse_eq_ok hsorted hlt,hin]
    simp [Except.toOption]
  | ok w =>
    have hw := (Disk.seekIn_reverse_eq_ok hsorted hlt).mp hin
    refine ⟨fun v => ?_,fun hall => absurd (hall w hw.1) (by omega)⟩
    rw [← Disk.seekIn_reverse_eq_ok hsorted hlt,hin]
    simp [Except.toOption]

theorem Visits.proper (hsorted : versions.Pairwise (· < ·))
    (hmem : ∀ v, v ∈ versions ↔ v < 2^32 ∧ ⟨snapshotName v,true⟩ ∈ dir.entries)
    (h : dir.Visits versions) : dir.Proper := by
  have hcount : ∀ (vs : List ℕ) (n : ℕ),
      walk (fun (_ : ℕ) n => (n+1,false,(none : Option SnapshotError))) vs n = (n+vs.length,none) := by
    intro vs
    induction vs with
    | nil => exact fun n => rfl
    | cons v vs ih => simp [walk,ih,Nat.add_assoc,Nat.add_comm 1]
  obtain ⟨hlen,hparsed⟩ := walk_count
    (((h.walks _ (fun _ n => (n+1,false,none)) 0).1).trans (hcount versions 0))
  have hnew := pairwise_snapshotName hsorted fun v hv => ((hmem v).mp hv).1
  have hsub : (versions.map fun v => (⟨snapshotName v,true⟩ : DirEntry)) ⊆
      dir.entries.filter Named := by
    intro e he
    obtain ⟨v,hv,rfl⟩ := List.mem_map.mp he
    exact mem_filter.mpr ⟨((hmem v).mp hv).2,by simp [Named,isSnapshotName_snapshotName]⟩
  -- There are as many directories with a name of the form as there are snapshots.
  have hperm := (subperm_of_subset (Nodup.of_map _ (hnew.imp ne_of_lt)) hsub).perm_of_length_le
    (by rw [length_map,← Nat.zero_add versions.length,hlen,Nat.zero_add]; rfl)
  intro e he hnamed
  obtain ⟨v,hv,rfl⟩ := List.mem_map.mp
    (hperm.mem_iff.mpr (mem_filter.mpr ⟨he,by simpa using hnamed⟩))
  obtain ⟨w,hw⟩ := hparsed _ he hnamed
  have hv := ((hmem v).mp hv).1
  refine ⟨v,?_,rfl⟩
  by_contra hle
  simp only at hw
  rw [parseVersion_snapshotName (by omega),if_neg hle] at hw
  cases hw

/-- The version in the name of a snapshot is read back when it is below `2^31`, names are in the
order of the versions, and the walks over a directory and the search in it do what they are for
when no other directory has a name of the form. -/
theorem snapshotNames_iff (dir : Directory) {versions : List ℕ}
    (hsorted : versions.Pairwise (· < ·))
    (hmem : ∀ v, v ∈ versions ↔ v < 2^32 ∧ ⟨snapshotName v,true⟩ ∈ dir.entries) :
    (∀ v : UInt32, parseVersion (snapshotName v.toNat) = .ok v.toNat ↔ v.toNat < 2^31) ∧
    (∀ v w : UInt32, snapshotName v.toNat < snapshotName w.toNat ↔ v < w) ∧
    (dir.Visits versions ↔ dir.Proper) := by
  refine ⟨fun v => ?_,fun v w => ?_,Visits.proper hsorted hmem,Proper.visits hsorted hmem⟩
  · have := v.toNat_lt
    rw [parseVersion_snapshotName (by omega)]
    split_ifs with h
    · exact iff_of_true rfl h
    · exact iff_of_false nofun h
  · have := v.toNat_lt
    have := w.toNat_lt
    rw [snapshotName_lt_iff (by omega) (by omega),UInt32.lt_iff_toNat_lt]

/-- Two snapshots, a temporary directory and a file with the name of a third snapshot. -/
def mixed : Directory where
  entries := [⟨snapshotName 3,true⟩,⟨snapshotName 7,true⟩,⟨snapshotName 7 ++ TmpSuffix,true⟩,
    ⟨snapshotName 9,false⟩]
  sorted := by decide +kernel

theorem snapshotNames_mixed : mixed.Visits [3,7] := by
  have hall : ∀ e ∈ mixed.entries, Named e → e.name = snapshotName 3 ∨ e.name = snapshotName 7 := by
    decide +kernel
  have hmem : ∀ v, v ∈ [3,7] ↔ v < 2^32 ∧ ⟨snapshotName v,true⟩ ∈ mixed.entries := by
    intro v
    constructor
    · revert v
      decide +kernel
    · rintro ⟨hlt,he⟩
      rcases hall _ he ⟨rfl,isSnapshotName_snapshotName v⟩ with h | h
      · simp [snapshotName_injective (by omega) (by omega) h]
      · simp [snapshotName_injective (by omega) (by omega) h]
  refine (snapshotNames_iff mixed (by decide) hmem).2.2.mpr fun e he hnamed => ?_
  rcases hall e he hnamed with h | h
  · exact ⟨3,by decide,h⟩
  · exact ⟨7,by decide,h⟩

/-- A snapshot of version `2^31` behind one of version 5, and a directory that only has a name of
the form. -/
def late : Directory where
  entries := [⟨snapshotName 5,true⟩,⟨snapshotName (2^31),true⟩]
  sorted := by decide +kernel

def lettered : Directory where
  entries := [⟨snapshotName 5,true⟩,⟨SnapshotPrefix ++ List.replicate 20 120,true⟩]
  sorted := by decide +kernel

theorem snapshotNames_late :
    parseVersion (snapshotName (2^31)) = .error (.overflows (digits 20 (2^31)) .outOfRange) ∧
    late.seekSnapshot 5 =
      .error (.invalidName (.overflows (digits 20 (2^31)) .outOfRange)) ∧
    lettered.seekSnapshot 5 =
      .error (.invalidName (.overflows (List.replicate 20 120) .invalidSyntax)) :=
  ⟨rfl,rfl,rfl⟩

end Directory

end Memiavl
