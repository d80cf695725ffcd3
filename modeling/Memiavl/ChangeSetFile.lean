import Memiavl.Library.Fallible
import Memiavl.Library.Uvarint
import Memiavl.StoreTree

/-! The change-set files of versiondb: the writer, the reader with its two modes, and the loops
over the change sets of a file. A reader is the bytes that are left. -/
namespace Memiavl

open Bytes Fallible List

/-- The longest slice that can be made; beyond it `make` panics. -/
def maxAlloc : ℕ := 2^48

/-- The errors of a reader, and of others with their text. -/
inductive FileError
  | read (err : ReadError)
  | message (text : String)
  deriving DecidableEq

def len64 (num : ℕ) : ℕ := if num = 0 then 0 else num.log2+1

def uvarintSize (num : ℕ) : ℕ :=
  let b := len64 num
  let (q,r) := (b/7,b % 7)
  if r > 0 ∨ q = 0 then q+1 else q

def encodedSizeOfKVPair (pair : KVPair) : ℕ :=
  let size := 1+uvarintSize pair.key.length+pair.key.length
  if pair.delete then size
  else size+uvarintSize pair.value.length+pair.value.length

/-- `copy(buf[offset:], xs)`, up to the end of the buffer. -/
def copyAt (buf : Bytes) (offset : ℕ) (xs : Bytes) : Bytes :=
  buf.take offset ++ xs.take (buf.length-offset) ++ buf.drop (offset+xs.length)

/-- `PutUvarint(buf[offset:], n)`: the buffer and how many bytes were written. -/
def putUvarintAt (buf : Bytes) (offset n : ℕ) : Except ReadError (Bytes × ℕ) :=
  let xs := putUvarint n
  if offset+xs.length ≤ buf.length then .ok (copyAt buf offset xs,xs.length) else .error .panic

/-- A length and its bytes at an offset: the buffer and the offset behind them. -/
def putField (buf : Bytes) (offset : ℕ) (xs : Bytes) : Except ReadError (Bytes × ℕ) := do
  let (buf,n) ← putUvarintAt buf offset xs.length
  .ok (copyAt buf (offset+n) xs,offset+n+xs.length)

def encodeKVPair (pair : KVPair) : Except ReadError Bytes :=
  let size := encodedSizeOfKVPair pair
  if maxAlloc < size then .error .panic
  else do
    let buf := List.replicate size 0
    let (buf,offset) ← putField buf 1 pair.key
    if pair.delete then .ok (copyAt buf 0 [1])
    else
      let (buf,_) ← putField buf offset pair.value
      .ok buf

def writeChangeSet (version : Int64) (changeSet : ChangeSet) : Except ReadError Bytes := do
  let items ← changeSet.mapM encodeKVPair
  let size := (items.map List.length).sum
  -- The items are in memory together.
  if maxAlloc < size then .error .panic
  else .ok (putLE 8 version.toUInt64.toNat ++ putLE 8 size ++ items.flatten)

def writeChangeSets : List (Int64 × ChangeSet) → Except ReadError Bytes
  | [] => .ok []
  | (version,changeSet)::sets => do
    let front ← writeChangeSet version changeSet
    let rest ← writeChangeSets sets
    .ok (front ++ rest)

def readField (bs : Bytes) : Except ReadError (Bytes × Bytes) := do
  let (len,bs) ← readUvarint bs
  if maxAlloc < len then .error .panic else readFull len bs

def readKVPair : Bytes → Except ReadError (KVPair × Bytes)
  | [] => .error .eof
  | deletion::bs => do
    let (key,bs) ← readField bs
    if deletion = 1 then .ok (⟨true,key,[]⟩,bs)
    else
      let (value,bs) ← readField bs
      .ok (⟨false,key,value⟩,bs)

/-- The loop of `ReadChangeSet` over the pairs, with a bound on its turns. -/
def readPairs (size : ℤ) : ℕ → ℤ → Bytes → Except ReadError (ℤ × ChangeSet × Bytes)
  | 0,offset,bs => .ok (offset,[],bs)
  | fuel+1,offset,bs =>
    if offset < size then do
      let (pair,bs) ← readKVPair bs
      let (offset,pairs,bs) ← readPairs size fuel (offset+encodedSizeOfKVPair pair) bs
      .ok (offset,pair::pairs,bs)
    else .ok (offset,[],bs)

/-- `CopyN` to `Discard`. A negative number is no error. -/
def discard (n : ℤ) (bs : Bytes) : Except ReadError Bytes :=
  if bs.length < n then .error .eof else .ok (bs.drop n.toNat)

def headerVersion (header : Bytes) : Int64 := (UInt64.ofNat (getLE (header.take 8))).toInt64

def headerSize (header : Bytes) : ℤ := (UInt64.ofNat (getLE (header.drop 8))).toInt64.toInt

/-- `ReadChangeSet`: the version, the number of bytes that it reports, the change set and what is
left. -/
def readChangeSet (parseChangeset : Bool) (bs : Bytes) :
    Except FileError (Int64 × ℤ × ChangeSet × Bytes) :=
  match readFull 16 bs with
  | .error err => .error (.read err)
  | .ok (header,bs) =>
    let version := headerVersion header
    let size := headerSize header
    if size = 0 then .ok (version,16,[],bs)
    else if parseChangeset then
      match readPairs size (bs.length+1) 0 bs with
      | .error err => .error (.read err)
      | .ok (offset,pairs,bs) =>
        if offset ≠ size then .error (.message
          s!"read beyond payload size limit, size: {size}, offset: {offset}")
        else .ok (version,size+16,pairs,bs)
    else
      match discard size bs with
      | .error err => .error (.read err)
      | .ok bs => .ok (version,size+16,[],bs)

/-- What is called on each change set, with the state that it works on. -/
abbrev Callback (σ : Type) := Int64 → ChangeSet → σ → σ × Except FileError Bool

section
variable {σ : Type}

/-- The loop of `IterateChangeSets` and of `IterateVersions`, with a bound on its turns: the state,
the offset of what is complete and the error. -/
def iterateFrom (parseChangeset : Bool) (fn : Callback σ) :
    ℕ → ℤ → σ → Bytes → σ × ℤ × Option FileError
  | 0,lastCompleteOffset,s,_ => (s,lastCompleteOffset,none)
  | fuel+1,lastCompleteOffset,s,bs =>
    match readChangeSet parseChangeset bs with
    | .error err => (s,lastCompleteOffset,some err)
    | .ok (version,offset,changeSet,bs) =>
      match fn version changeSet s with
      | (s,.error err) => (s,lastCompleteOffset,some err)
      | (s,.ok false) => (s,lastCompleteOffset+offset,none)
      | (s,.ok true) => iterateFrom parseChangeset fn fuel (lastCompleteOffset+offset) s bs

def withoutEof (err : Option FileError) : Option FileError :=
  if err = some (.read .eof) then none else err

def iterate (parseChangeset : Bool) (fn : Callback σ) (s : σ) (bs : Bytes) :
    σ × ℤ × Option FileError :=
  let (s,offset,err) := iterateFrom parseChangeset fn (bs.length+1) 0 s bs
  (s,offset,withoutEof err)

def iterateChangeSets (fn : Callback σ) (s : σ) (bs : Bytes) : σ × ℤ × Option FileError :=
  iterate true fn s bs

def iterateVersions (fn : Int64 → σ → σ × Except FileError Bool) (s : σ) (bs : Bytes) :
    σ × ℤ × Option FileError :=
  iterate false (fun version _ s => fn version s) s bs

end

theorem len64_le_iff (num k : ℕ) : len64 num ≤ k ↔ num < 2^k := by
  unfold len64
  split_ifs with hzero
  · simp [hzero]
  · rw [Nat.succ_le_iff,Nat.log2_lt hzero]

theorem uvarintSize_le_iff (num k : ℕ) : uvarintSize num ≤ k+1 ↔ num < 2^(7*(k+1)) := by
  rw [← len64_le_iff,uvarintSize]
  split <;> omega

theorem uvarintSize_pos (num : ℕ) : 0 < uvarintSize num := by
  rw [uvarintSize]
  split_ifs <;> omega

@[simp] theorem uvarintSize_eq (num : ℕ) : uvarintSize num = (putUvarint num).length := by
  have hsame : ∀ k, uvarintSize num ≤ k+1 ↔ (putUvarint num).length ≤ k+1 := fun k =>
    (uvarintSize_le_iff num k).trans (length_putUvarint_le_iff num k).symm
  have hpos := uvarintSize_pos num
  have hput := length_putUvarint_pos num
  have h₁ := (hsame ((putUvarint num).length-1)).mpr (by omega)
  have h₂ := (hsame (uvarintSize num-1)).mp (by omega)
  omega

/-- The bytes of a pair with the lengths in their shortest form. -/
def pairBytes (pair : KVPair) : Bytes :=
  (if pair.delete then 1 else 0)::(putUvarint pair.key.length ++ pair.key ++
    if pair.delete then [] else putUvarint pair.value.length ++ pair.value)

theorem length_pairBytes (pair : KVPair) : (pairBytes pair).length = encodedSizeOfKVPair pair := by
  unfold pairBytes encodedSizeOfKVPair
  split_ifs <;> simp <;> omega

theorem copyAt_front (front xs : Bytes) {n : ℕ} (h : xs.length ≤ n) :
    copyAt (front ++ List.replicate n 0) front.length xs =
      front ++ xs ++ List.replicate (n-xs.length) 0 := by
  simp [copyAt,take_of_length_le,h,drop_append]

theorem putField_front (front xs : Bytes) (n : ℕ) :
    putField (front ++ List.replicate ((putUvarint xs.length).length+xs.length+n) 0) front.length xs =
      .ok (front ++ (putUvarint xs.length ++ xs) ++ List.replicate n 0,
        (front ++ (putUvarint xs.length ++ xs)).length) := by
  generalize hm : (putUvarint xs.length).length+xs.length+n = m
  have hput : putUvarintAt (front ++ List.replicate m 0) front.length xs.length =
      .ok (front ++ putUvarint xs.length ++ List.replicate (xs.length+n) 0,
        (putUvarint xs.length).length) := by
    rw [putUvarintAt,copyAt_front _ _ (by omega),if_pos (by simp; omega),
      show m-(putUvarint xs.length).length = xs.length+n by omega]
  have hcopy := copyAt_front (front ++ putUvarint xs.length) xs (Nat.le_add_right xs.length n)
  rw [length_append,Nat.add_sub_cancel_left] at hcopy
  rw [putField,hput]
  change Except.ok (copyAt _ _ _,_) = _
  rw [hcopy]
  simp [Nat.add_assoc]

theorem encodeKVPair_eq (pair : KVPair) : encodeKVPair pair =
    if maxAlloc < encodedSizeOfKVPair pair then .error .panic else .ok (pairBytes pair) := by
  rw [encodeKVPair]
  refine if_congr Iff.rfl rfl ?_
  obtain ⟨delete,key,value⟩ := pair
  -- The byte for the flag stands in front of the fields.
  have hkey : ∀ n, putField (List.replicate (1+(putUvarint key.length).length+key.length+n) 0) 1 key =
      .ok ([0] ++ (putUvarint key.length ++ key) ++ List.replicate n 0,
        ([0] ++ (putUvarint key.length ++ key)).length) := fun n => by
    rw [Nat.add_assoc 1,Nat.add_assoc 1,Nat.add_comm 1,replicate_succ]
    exact putField_front [0] key n
  cases delete with
  | true =>
    simp only [encodedSizeOfKVPair,uvarintSize_eq,if_true]
    rw [← Nat.add_zero (1+_+_),hkey]
    simp [pairBytes,bind,Except.bind,copyAt]
  | false =>
    have hvalue := putField_front ([0] ++ (putUvarint key.length ++ key)) value 0
    rw [Nat.add_zero] at hvalue
    simp only [encodedSizeOfKVPair,uvarintSize_eq,Bool.false_eq_true,if_false]
    rw [Nat.add_assoc (1+_+_),hkey]
    change (putField _ _ _ >>= _) = _
    rw [hvalue]
    simp [pairBytes,bind,Except.bind]

/-- The size of a number is the number of its bytes, and the flag, the lengths, the key and the
value fill the buffer of a pair. -/
theorem encodeKVPair_fills : (∀ n : UInt64, uvarintSize n.toNat = (putUvarint n.toNat).length) ∧
    ∀ pair : KVPair, (pairBytes pair).length = encodedSizeOfKVPair pair ∧ encodeKVPair pair =
      if maxAlloc < encodedSizeOfKVPair pair then .error .panic else .ok (pairBytes pair) :=
  ⟨fun n => uvarintSize_eq n.toNat,fun pair => ⟨length_pairBytes pair,encodeKVPair_eq pair⟩⟩

def PairForm (raw : Bytes) (pair : KVPair) : Prop := ∃ deletion keyField valueField,
  raw = deletion::(keyField ++ valueField) ∧ pair.delete = (deletion == 1) ∧
    Framed keyField pair.key ∧
    if pair.delete then valueField = [] ∧ pair.value = [] else Framed valueField pair.value

/-- What is stored of a pair. -/
def KVPair.stored (pair : KVPair) : KVPair := if pair.delete then { pair with value := [] } else pair

theorem readField_eq_ok {bs body rest : Bytes} : readField bs = .ok (body,rest) ↔
    ∃ field, bs = field ++ rest ∧ Framed field body ∧ body.length ≤ maxAlloc := by
  unfold readField
  rw [bind_eq_ok]
  constructor
  · rintro ⟨⟨len,bs'⟩,hread,h⟩
    rw [ite_error_eq_ok,readFull,ite_ok_error] at h
    obtain ⟨hmax,hlen,heq⟩ := h
    obtain ⟨rfl,rfl⟩ := Prod.mk.inj heq
    obtain ⟨field,rfl,hframed⟩ := framed_of_read hread hlen
    refine ⟨field,rfl,hframed,?_⟩
    rw [length_take]
    omega
  · rintro ⟨field,rfl,hframed,hmax⟩
    refine ⟨_,hframed.read rest,?_⟩
    simp only
    rw [if_neg (by omega),readFull_append]

variable {pair : KVPair} {changeSet : ChangeSet}

theorem readKVPair_eq_ok {bs rest : Bytes} : readKVPair bs = .ok (pair,rest) ↔
    ∃ raw, bs = raw ++ rest ∧ PairForm raw pair ∧
      pair.key.length ≤ maxAlloc ∧ pair.value.length ≤ maxAlloc := by
  constructor
  · intro h
    cases bs with
    | nil => cases h
    | cons deletion bs =>
      rw [readKVPair,bind_eq_ok] at h
      obtain ⟨⟨key,bs'⟩,hkey,h⟩ := h
      obtain ⟨keyField,rfl,hframed,hmax⟩ := readField_eq_ok.mp hkey
      simp only at h
      split_ifs at h with hdelete
      · obtain ⟨rfl,rfl⟩ := Prod.mk.inj (Except.ok.inj h)
        exact ⟨deletion::keyField,rfl,⟨deletion,keyField,[],by simp,by simp [hdelete],hframed,
          by simp⟩,hmax,Nat.zero_le _⟩
      · rw [bind_eq_ok] at h
        obtain ⟨⟨value,bs''⟩,hvalue,h⟩ := h
        obtain ⟨valueField,rfl,hframed',hmax'⟩ := readField_eq_ok.mp hvalue
        obtain ⟨rfl,rfl⟩ := Prod.mk.inj (Except.ok.inj h)
        exact ⟨deletion::(keyField ++ valueField),by simp,⟨deletion,keyField,valueField,rfl,
          by simp [hdelete],hframed,by simpa using hframed'⟩,hmax,hmax'⟩
  · rintro ⟨raw,rfl,⟨deletion,keyField,valueField,rfl,hdelete,hkey,hvalue⟩,hmax,hmax'⟩
    obtain ⟨delete,key,value⟩ := pair
    dsimp only at hdelete hkey hvalue hmax hmax'
    subst hdelete
    rw [cons_append,append_assoc,readKVPair,
      readField_eq_ok.mpr ⟨keyField,rfl,hkey,hmax⟩]
    by_cases hone : deletion = 1
    · subst hone
      obtain ⟨rfl,rfl⟩ := hvalue
      rfl
    · rw [if_neg (by simpa using hone)] at hvalue
      change (if deletion = 1 then _ else _) = _
      rw [if_neg hone,readField_eq_ok.mpr ⟨valueField,rfl,hvalue,hmax'⟩]
      simp [hone,bind,Except.bind]

theorem PairForm.ne_nil {raw : Bytes} (h : PairForm raw pair) : raw ≠ [] := by
  obtain ⟨deletion,keyField,valueField,rfl,-⟩ := h
  simp

theorem encodedSizeOfKVPair_stored (pair : KVPair) :
    encodedSizeOfKVPair pair.stored = encodedSizeOfKVPair pair := by
  unfold KVPair.stored encodedSizeOfKVPair
  split_ifs <;> rfl

/-- What is written for a pair is read as what is stored of it. -/
theorem readKVPair_pairBytes (h : encodedSizeOfKVPair pair ≤ maxAlloc) (rest : Bytes) :
    readKVPair (pairBytes pair ++ rest) = .ok (pair.stored,rest) := by
  obtain ⟨delete,key,value⟩ := pair
  have hmax : maxAlloc < 2^64 := by decide
  cases delete with
  | true =>
    simp only [encodedSizeOfKVPair,if_true] at h
    refine readKVPair_eq_ok.mpr ⟨_,rfl,⟨1,_,[],rfl,rfl,Framed.put (by dsimp only; omega),
      by simp [KVPair.stored]⟩,
      ?_,Nat.zero_le _⟩
    simp only [KVPair.stored,if_true]
    omega
  | false =>
    simp only [encodedSizeOfKVPair,Bool.false_eq_true,if_false] at h
    refine readKVPair_eq_ok.mpr ⟨_,rfl,⟨0,_,_,rfl,rfl,Framed.put (by dsimp only; omega),?_⟩,?_,?_⟩
    · simpa [KVPair.stored] using Framed.put (by omega)
    · simp only [KVPair.stored,Bool.false_eq_true,if_false]
      omega
    · simp only [KVPair.stored,Bool.false_eq_true,if_false]
      omega

theorem encodedSizeOfKVPair_pos (pair : KVPair) : 0 < encodedSizeOfKVPair pair := by
  rw [← length_pairBytes,pairBytes]
  simp

def payloadSize (changeSet : ChangeSet) : ℕ := (changeSet.map encodedSizeOfKVPair).sum

def changeSetBytes (version : Int64) (changeSet : ChangeSet) : Bytes :=
  putLE 8 version.toUInt64.toNat ++ putLE 8 (payloadSize changeSet) ++ changeSet.flatMap pairBytes

@[simp] theorem payloadSize_cons (pair : KVPair) (pairs : ChangeSet) :
    payloadSize (pair::pairs) = encodedSizeOfKVPair pair+payloadSize pairs := rfl

theorem length_le_payloadSize (changeSet : ChangeSet) : changeSet.length ≤ payloadSize changeSet := by
  induction changeSet with
  | nil => simp
  | cons pair pairs ih =>
    have hpos := encodedSizeOfKVPair_pos pair
    rw [payloadSize_cons,length_cons]
    omega

theorem length_flatMap_pairBytes (changeSet : ChangeSet) :
    (changeSet.flatMap pairBytes).length = payloadSize changeSet := by
  simp [length_flatMap,payloadSize,length_pairBytes]

theorem mapM_encodeKVPair {items : List Bytes} (h : changeSet.mapM encodeKVPair = .ok items) :
    items = changeSet.map pairBytes := by
  induction changeSet generalizing items with
  | nil => exact (Except.ok.inj h).symm
  | cons pair pairs ih =>
    rw [mapM_cons,bind_eq_ok] at h
    obtain ⟨item,hitem,h⟩ := h
    rw [bind_eq_ok] at h
    obtain ⟨items',hitems,h⟩ := h
    obtain rfl := pure_eq_ok.mp h
    rw [encodeKVPair_eq,ite_error_eq_ok] at hitem
    rw [ih hitems,map_cons,Except.ok.inj hitem.2]

theorem writeChangeSet_ok {version : Int64} {file : Bytes}
    (h : writeChangeSet version changeSet = .ok file) :
    payloadSize changeSet ≤ maxAlloc ∧ file = changeSetBytes version changeSet := by
  rw [writeChangeSet,bind_eq_ok] at h
  obtain ⟨items,hitems,h⟩ := h
  obtain rfl := mapM_encodeKVPair hitems
  have hsize : ((changeSet.map pairBytes).map List.length).sum = payloadSize changeSet := by
    simp [payloadSize,Function.comp_def,length_pairBytes]
  simp only [hsize] at h
  obtain ⟨hmax,h⟩ := ite_error_eq_ok.mp h
  refine ⟨not_lt.mp hmax,?_⟩
  rw [← Except.ok.inj h,changeSetBytes,flatMap_def]

theorem headerVersion_put (version : Int64) (xs : Bytes) :
    headerVersion (putLE 8 version.toUInt64.toNat ++ xs) = version := by
  have hlt : version.toUInt64.toNat < 256^8 := version.toUInt64.toNat_lt
  rw [headerVersion,take_left' (length_putLE ..),getLE_putLE,Nat.mod_eq_of_lt hlt,
    UInt64.ofNat_toNat]
  rfl

theorem headerSize_put {xs : Bytes} (hxs : xs.length = 8) {size : ℕ} (h : size < 2^63) :
    headerSize (xs ++ putLE 8 size) = size := by
  rw [headerSize,drop_left' hxs,getLE_putLE,Nat.mod_eq_of_lt (by omega)]
  exact Int64.toInt_ofNat_of_lt h

/-- Pairs are read one after the other while what is counted for them stays within the size. -/
theorem readPairs_append {raws : List Bytes} {pairs : ChangeSet}
    (h : List.Forall₂ (fun raw pair => ∀ rest, readKVPair (raw ++ rest) = .ok (pair,rest)) raws pairs)
    {size offset : ℤ} (hle : offset+payloadSize pairs ≤ size) (fuel : ℕ) (rest : Bytes) :
    readPairs size (pairs.length+fuel) offset (raws.flatten ++ rest) =
      (readPairs size fuel (offset+payloadSize pairs) rest).map fun (offset,more,bs) =>
        (offset,pairs ++ more,bs) := by
  induction h generalizing offset with
  | nil =>
    simp only [payloadSize,map_nil,sum_nil,Nat.cast_zero,Int.add_zero,length_nil,Nat.zero_add,
      flatten_nil,nil_append]
    cases readPairs size fuel offset rest <;> rfl
  | @cons raw pair raws pairs hread _ ih =>
    have hpos := encodedSizeOfKVPair_pos pair
    rw [payloadSize_cons,Nat.cast_add,← Int.add_assoc] at hle ⊢
    rw [length_cons,Nat.add_right_comm,readPairs,if_pos (by omega),flatten_cons,append_assoc,hread]
    change (readPairs _ _ (offset+(encodedSizeOfKVPair pair : ℕ)) _ >>= _) = _
    rw [ih hle]
    cases readPairs size fuel (offset+encodedSizeOfKVPair pair+payloadSize pairs) rest <;> rfl

theorem readPairs_written (hmax : payloadSize changeSet ≤ maxAlloc) {fuel : ℕ}
    (hfuel : changeSet.length < fuel) (rest : Bytes) :
    readPairs (payloadSize changeSet) fuel 0 (changeSet.flatMap pairBytes ++ rest) =
      .ok ((payloadSize changeSet : ℤ),changeSet.map KVPair.stored,rest) := by
  obtain ⟨fuel,rfl⟩ : ∃ k, fuel = changeSet.length+(k+1) := ⟨fuel-changeSet.length-1,by omega⟩
  have hsize : payloadSize (changeSet.map KVPair.stored) = payloadSize changeSet := by
    simp [payloadSize,Function.comp_def,encodedSizeOfKVPair_stored]
  have hread : List.Forall₂ (fun raw pair => ∀ rest, readKVPair (raw ++ rest) = .ok (pair,rest))
      (changeSet.map pairBytes) (changeSet.map KVPair.stored) := by
    rw [forall₂_map_left_iff,forall₂_map_right_iff,forall₂_same]
    exact fun pair hpair => readKVPair_pairBytes ((le_sum_of_mem (mem_map_of_mem hpair)).trans hmax)
  have hle : (0 : ℤ)+payloadSize (changeSet.map KVPair.stored) ≤ payloadSize changeSet := by
    rw [hsize,Int.zero_add]
  have hall := readPairs_append hread hle (fuel+1) rest
  rw [hsize,length_map,Int.zero_add,← flatMap_def] at hall
  rw [hall,readPairs,if_neg (lt_irrefl _)]
  simp [Except.map]

theorem length_changeSetBytes (version : Int64) (changeSet : ChangeSet) :
    (changeSetBytes version changeSet).length = payloadSize changeSet+16 := by
  rw [changeSetBytes,length_append,length_append,length_flatMap_pairBytes,length_putLE,
    length_putLE]
  omega

/-- Both modes read what was written, and leave what stands behind it. -/
theorem readChangeSet_written {version : Int64} {changeSet : ChangeSet}
    (hmax : payloadSize changeSet ≤ maxAlloc) (parseChangeset : Bool) (rest : Bytes) :
    readChangeSet parseChangeset (changeSetBytes version changeSet ++ rest) =
      .ok (version,(changeSetBytes version changeSet).length,
        if parseChangeset then changeSet.map KVPair.stored else [],rest) := by
  have hmax' : maxAlloc < 2^63 := by decide
  have hread := readFull_append (putLE 8 version.toUInt64.toNat ++ putLE 8 (payloadSize changeSet))
    (changeSet.flatMap pairBytes ++ rest)
  have hheader : (putLE 8 version.toUInt64.toNat ++ putLE 8 (payloadSize changeSet)).length = 16 := by
    simp
  have hsize := headerSize_put (length_putLE 8 version.toUInt64.toNat)
    (by omega : payloadSize changeSet < 2^63)
  have hlen := length_flatMap_pairBytes changeSet
  rw [hheader] at hread
  rw [length_changeSetBytes,readChangeSet,changeSetBytes,append_assoc,hread]
  simp only [headerVersion_put,hsize]
  by_cases hempty : changeSet = []
  · subst hempty
    simp [payloadSize]
  · have hpos := length_le_payloadSize changeSet
    have hne := length_pos_of_ne_nil hempty
    rw [if_neg (by omega)]
    cases parseChangeset with
    | true =>
      have hpairs := readPairs_written hmax
        (show changeSet.length < (changeSet.flatMap pairBytes ++ rest).length+1
          by rw [length_append]; omega) rest
      simp only [if_true,hpairs]
      simp
    | false =>
      have hskip : discard (payloadSize changeSet) (changeSet.flatMap pairBytes ++ rest) = .ok rest := by
        rw [discard,if_neg (by rw [length_append]; omega),Int.toNat_natCast,
          drop_left' hlen]
      simp [hskip]

def fileBytes (sets : List (Int64 × ChangeSet)) : Bytes := sets.flatMap fun x => changeSetBytes x.1 x.2

theorem writeChangeSets_ok {sets : List (Int64 × ChangeSet)} {file : Bytes}
    (h : writeChangeSets sets = .ok file) :
    (∀ x ∈ sets, payloadSize x.2 ≤ maxAlloc) ∧ file = fileBytes sets := by
  induction sets generalizing file with
  | nil => exact ⟨by simp,(Except.ok.inj h).symm⟩
  | cons x sets ih =>
    rw [writeChangeSets,bind_eq_ok] at h
    obtain ⟨front,hfront,h⟩ := h
    rw [bind_eq_ok] at h
    obtain ⟨rest,hrest,h⟩ := h
    obtain ⟨hmax,rfl⟩ := writeChangeSet_ok hfront
    obtain ⟨hall,rfl⟩ := ih hrest
    exact ⟨forall_mem_cons.mpr ⟨hmax,hall⟩,(Except.ok.inj h).symm⟩

section
variable {σ : Type}

/-- Calling it on change sets in order until it stops: the state, how many calls were complete and
the error. -/
def visit (fn : Callback σ) : List (Int64 × ChangeSet) → σ → σ × ℕ × Option FileError
  | [],s => (s,0,none)
  | (version,changeSet)::sets,s =>
    match fn version changeSet s with
    | (s,.error err) => (s,0,some err)
    | (s,.ok false) => (s,1,none)
    | (s,.ok true) =>
      let (s,n,err) := visit fn sets s
      (s,n+1,err)

/-- What a mode hands over of a change set. -/
def handed (parseChangeset : Bool) (x : Int64 × ChangeSet) : Int64 × ChangeSet :=
  (x.1,if parseChangeset then x.2.map KVPair.stored else [])

theorem readChangeSet_nil (parseChangeset : Bool) :
    readChangeSet parseChangeset [] = .error (.read .eof) := rfl

variable {sets : List (Int64 × ChangeSet)}

/-- The loop over a written file makes the calls on its change sets, and ends at the end of the
file if none of them stops it. -/
theorem iterateFrom_written (parseChangeset : Bool) (fn : Callback σ)
    (hmax : ∀ x ∈ sets, payloadSize x.2 ≤ maxAlloc) {fuel : ℕ} (hfuel : sets.length < fuel)
    (offset : ℤ) (s : σ) :
    ∃ err, iterateFrom parseChangeset fn fuel offset s (fileBytes sets) =
        ((visit fn (sets.map (handed parseChangeset)) s).1,
          offset+(fileBytes (sets.take (visit fn (sets.map (handed parseChangeset)) s).2.1)).length,
          err) ∧
      withoutEof err = withoutEof (visit fn (sets.map (handed parseChangeset)) s).2.2 := by
  induction sets generalizing fuel offset s with
  | nil =>
    obtain ⟨fuel,rfl⟩ : ∃ f, fuel = f+1 := ⟨fuel-1,by simp at hfuel; omega⟩
    refine ⟨some (.read .eof),?_,rfl⟩
    simp [iterateFrom,fileBytes,readChangeSet_nil,visit]
  | cons x sets ih =>
    obtain ⟨fuel,rfl⟩ : ∃ f, fuel = f+1 := ⟨fuel-1,by simp at hfuel; omega⟩
    obtain ⟨hx,hsets⟩ := forall_mem_cons.mp hmax
    have hread := @readChangeSet_written x.1 x.2 hx parseChangeset (fileBytes sets)
    have hfile : ∀ xs, fileBytes (x::xs) = changeSetBytes x.1 x.2 ++ fileBytes xs := fun _ => rfl
    rw [hfile,iterateFrom,hread,map_cons,handed]
    simp only [visit]
    rcases hcall : fn x.1 (if parseChangeset then x.2.map KVPair.stored else []) s with ⟨s',r⟩
    cases r with
    | error err => exact ⟨some err,by simp [fileBytes],rfl⟩
    | ok cont =>
      cases cont with
      | false => exact ⟨none,by simp [fileBytes],rfl⟩
      | true =>
        have hlen : sets.length < fuel := by simpa using hfuel
        obtain ⟨err,hrest,herr⟩ := ih hsets hlen (offset+(changeSetBytes x.1 x.2).length) s'
        refine ⟨err,?_,herr⟩
        simp only [hrest,take_succ_cons,hfile,length_append]
        push_cast
        rw [Int.add_assoc]

theorem length_le_fileBytes (sets : List (Int64 × ChangeSet)) :
    sets.length ≤ (fileBytes sets).length := by
  induction sets with
  | nil => simp
  | cons x sets ih =>
    have hfile : fileBytes (x::sets) = changeSetBytes x.1 x.2 ++ fileBytes sets := rfl
    rw [hfile,length_append,length_changeSetBytes,length_cons]
    omega

theorem iterate_written (parseChangeset : Bool) (fn : Callback σ) {file : Bytes}
    (h : writeChangeSets sets = .ok file) (s : σ) :
    iterate parseChangeset fn s file =
      ((visit fn (sets.map (handed parseChangeset)) s).1,
        ((fileBytes (sets.take (visit fn (sets.map (handed parseChangeset)) s).2.1)).length : ℤ),
        withoutEof (visit fn (sets.map (handed parseChangeset)) s).2.2) := by
  obtain ⟨hmax,rfl⟩ := writeChangeSets_ok h
  obtain ⟨err,hrun,herr⟩ := iterateFrom_written parseChangeset fn hmax
    (Nat.lt_succ_of_le (length_le_fileBytes sets)) 0 s
  rw [iterate,hrun]
  simp only [herr,Int.zero_add]

theorem writeChangeSets_take {file : Bytes} (h : writeChangeSets sets = .ok file) (i : ℕ) :
    writeChangeSets (sets.take i) = .ok (fileBytes (sets.take i)) := by
  induction sets generalizing file i with
  | nil =>
    rw [take_nil]
    rfl
  | cons x sets ih =>
    obtain _ | i := i
    · rfl
    · rw [writeChangeSets,bind_eq_ok] at h
      obtain ⟨front,hfront,h⟩ := h
      rw [bind_eq_ok] at h
      obtain ⟨rest,hrest,-⟩ := h
      rw [take_succ_cons,writeChangeSets,hfront]
      change (writeChangeSets _ >>= _) = _
      rw [ih hrest,(writeChangeSet_ok hfront).2]
      rfl

def returning (fn : Int64 → ChangeSet → σ → σ × Bool) : Callback σ := fun version changeSet s =>
  ((fn version changeSet s).1,.ok (fn version changeSet s).2)

theorem visit_returning (fn : Int64 → ChangeSet → σ → σ × Bool) (sets : List (Int64 × ChangeSet))
    (s : σ) : (visit (returning fn) sets s).2.2 = none := by
  induction sets generalizing s with
  | nil => rfl
  | cons x sets ih =>
    rw [visit,returning]
    cases hcont : (fn x.1 x.2 s).2 with
    | false => rfl
    | true => exact ih _

/-- The result of a loop that makes the calls in order until one stops it, without an error and at
the end of the change sets of these calls. -/
def Visits (sets calls : List (Int64 × ChangeSet)) (fn : Callback σ) (s : σ)
    (result : σ × ℤ × Option FileError) : Prop :=
  let (s',i,_) := visit fn calls s
  ∃ front, writeChangeSets (sets.take i) = .ok front ∧ result = (s',(front.length : ℤ),none)

/-- What was written is read again, by any callback that stops where it likes. -/
theorem changeSetFile_round_trip {sets : List (Int64 × ChangeSet)} {file : Bytes}
    (h : writeChangeSets sets = .ok file) (fn : Int64 → ChangeSet → σ → σ × Bool)
    (onVersion : Int64 → σ → σ × Bool) (s : σ) :
    Visits sets (sets.map fun x => (x.1,x.2.map KVPair.stored)) (returning fn) s
        (iterateChangeSets (returning fn) s file) ∧
      Visits sets (sets.map fun x => (x.1,[])) (returning fun version _ => onVersion version) s
        (iterateVersions (fun version s => ((onVersion version s).1,.ok (onVersion version s).2)) s
          file) := by
  constructor
  · refine ⟨_,writeChangeSets_take h _,?_⟩
    rw [iterateChangeSets,iterate_written true _ h,visit_returning]
    rfl
  · refine ⟨_,writeChangeSets_take h _,?_⟩
    have := iterate_written false (returning fun version _ => onVersion version) h s
    rw [visit_returning] at this
    exact this

end

/-- Two change sets, and a callback that stops after the first of them. -/
theorem changeSetFile_round_trip_two :
    writeChangeSets [(1,[⟨false,[5],[6]⟩]),(2,[⟨true,[5],[7]⟩])] = .ok
        [1,0,0,0,0,0,0,0,5,0,0,0,0,0,0,0,0,1,5,1,6,2,0,0,0,0,0,0,0,3,0,0,0,0,0,0,0,1,1,5] ∧
      Visits [(1,[⟨false,[5],[6]⟩]),(2,[⟨true,[5],[7]⟩])] [(1,[⟨false,[5],[6]⟩]),(2,[⟨true,[5],[]⟩])]
        (returning fun _ changeSet seen => (seen ++ changeSet,false)) []
        (iterateChangeSets (returning fun _ changeSet seen => (seen ++ changeSet,false)) []
          [1,0,0,0,0,0,0,0,5,0,0,0,0,0,0,0,0,1,5,1,6,2,0,0,0,0,0,0,0,3,0,0,0,0,0,0,0,1,1,5]) :=
  ⟨by decide +kernel,(changeSetFile_round_trip (by decide +kernel) _
    (fun _ seen => (seen,true)) []).1⟩

end Memiavl
