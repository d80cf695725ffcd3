import Memiavl.SstBuild

/-! The comparator of keys with timestamps, and the items of the sorter. The items are decoded with
offsets of 32 bits, as in the source, so a key that is too long is not read back. -/
namespace Memiavl

open Bytes SorterItem List

namespace Tsrocksdb

def bytesCompare (a b : Bytes) : ℤ := if a = b then 0 else if a < b then -1 else 1

def timestampSize : ℕ := 8

def compareTS (bz1 bz2 : Bytes) : ℤ :=
  let ts1 := getLE bz1
  let ts2 := getLE bz2
  if ts1 < ts2 then -1 else if ts1 > ts2 then 1 else 0

def compareWithoutTS (a : Bytes) (aHasTS : Bool) (b : Bytes) (bHasTS : Bool) : ℤ :=
  bytesCompare (if aHasTS then a.take (a.length-timestampSize) else a)
    (if bHasTS then b.take (b.length-timestampSize) else b)

def compare (a b : Bytes) : ℤ :=
  let ret := compareWithoutTS a true b true
  if ret ≠ 0 then ret
  else -compareTS (a.drop (a.length-timestampSize)) (b.drop (b.length-timestampSize))

theorem bytesCompare_neg (a b : Bytes) : bytesCompare a b < 0 ↔ a < b := by
  unfold bytesCompare
  split
  · rename_i h
    simp [h]
  · split <;> simp_all

theorem bytesCompare_eq_zero (a b : Bytes) : bytesCompare a b = 0 ↔ a = b := by
  unfold bytesCompare
  split
  · simp_all
  · split <;> simp_all

theorem compareTS_pos (a b : Bytes) : 0 < compareTS a b ↔ getLE b < getLE a := by
  unfold compareTS
  dsimp only
  split
  · simp
    omega
  · split <;> simp_all

theorem getLE_timestamp (v : UInt64) : getLE (putLE 8 v.toNat) = v.toNat := by
  rw [getLE_putLE,show 256^8 = 2^64 by rfl,Nat.mod_eq_of_lt v.toNat_lt]

/-- Keys with a timestamp are compared by the key, and then the newer timestamp comes first. -/
theorem compare_neg (a b : Bytes) (v w : UInt64) :
    compare (a ++ putLE 8 v.toNat) (b ++ putLE 8 w.toNat) < 0 ↔ a < b ∨ a = b ∧ w < v := by
  have hkey : ∀ (k : Bytes) (u : UInt64),
      (k ++ putLE 8 u.toNat).take ((k ++ putLE 8 u.toNat).length-timestampSize) = k := by
    intro k u
    simp [timestampSize]
  have hts : ∀ (k : Bytes) (u : UInt64),
      (k ++ putLE 8 u.toNat).drop ((k ++ putLE 8 u.toNat).length-timestampSize) =
        putLE 8 u.toNat := by
    intro k u
    simp [timestampSize]
  simp only [compare,compareWithoutTS,hkey,hts,if_true]
  split
  · rename_i hne
    rw [bytesCompare_neg]
    have hab : a ≠ b := fun h => hne ((bytesCompare_eq_zero a b).mpr h)
    simp [hab]
  · rename_i heq
    have hab : a = b := (bytesCompare_eq_zero a b).mp (not_not.mp heq)
    rw [neg_lt_zero,compareTS_pos,getLE_timestamp,getLE_timestamp,UInt64.lt_iff_toNat_lt]
    simp [hab]

end Tsrocksdb

/-- `bz[lo:hi]` of a slice without spare capacity. -/
def goSlice (bz : Bytes) (lo hi : ℕ) : Outcome Bytes :=
  if lo ≤ hi ∧ hi ≤ bz.length then .ok ((bz.take hi).drop lo) else .panic

def goIndex (bz : Bytes) (i : ℕ) : Outcome UInt8 :=
  if h : i < bz.length then .ok bz[i] else .panic

/-- `decodeSorterItem` with its `uint32` offset and the bounds checks. -/
def decodeSorterItem32 (item : Bytes) : Outcome (Bytes × KVPair) :=
  if item.length < 4 then .panic
  else
    let keyLen : UInt32 := .ofNat (keyLen item)
    (goSlice item 0 keyLen.toNat).bind fun key =>
    let offset := keyLen
    (goSlice item offset.toNat (offset+8).toNat).bind fun version =>
    let offset := offset+8
    (goIndex item offset.toNat).bind fun flag =>
    if flag = 1 then .ok (version,⟨true,key,[]⟩)
    else
      let offset := offset+1
      (goSlice item offset.toNat (item.length-4)).bind fun value => .ok (version,⟨false,key,value⟩)

theorem goSlice_mid (before p after : Bytes) {hi : ℕ} (hhi : hi = before.length+p.length) :
    goSlice (before ++ p ++ after) before.length hi = .ok p := by
  rw [goSlice,if_pos (by simp [hhi]),hhi,← length_append,take_left,drop_left]

theorem goSlice_wrapped (bz : Bytes) {lo hi : ℕ} (h : hi < lo) : goSlice bz lo hi = .panic :=
  if_neg fun hle => absurd hle.1 (not_le.mpr h)

theorem length_goSlice {bz out : Bytes} {lo hi : ℕ} (h : goSlice bz lo hi = .ok out) :
    out.length = hi-lo := by
  unfold goSlice at h
  split at h
  · rename_i hle
    cases h
    rw [length_drop,length_take,min_eq_left hle.2]
  · cases h

theorem goIndex_mid (before after : Bytes) (b : UInt8) :
    goIndex (before ++ b::after) before.length = .ok b := by
  rw [goIndex,dif_pos (by simp)]
  simp

def KVPair.body (pair : KVPair) : Bytes := if pair.delete then [1] else 0::pair.value

/-- The offsets of an item fit in 32 bits. -/
def KVPair.Fits (pair : KVPair) : Prop :=
  pair.key.length+8+(if pair.delete then 0 else 1) < 2^32

section
variable (v : UInt64) (pair : KVPair)

theorem encodeSorterItem_eq : encodeSorterItem v pair =
    pair.key ++ putLE 8 v.toNat ++ pair.body ++ putLE 4 pair.key.length := rfl

theorem length_encode : (encodeSorterItem v pair).length =
    pair.key.length+8+pair.body.length+4 := by
  simp [encodeSorterItem_eq,Nat.add_assoc]

theorem keyLen_encode_mod : keyLen (encodeSorterItem v pair) = pair.key.length % 2^32 := by
  rw [keyLen,encodeSorterItem_eq,length_append,length_putLE,Nat.add_sub_cancel,
    drop_left,getLE_putLE]
  rfl

theorem keyLen_encode32 :
    (UInt32.ofNat (keyLen (encodeSorterItem v pair))).toNat = pair.key.length % 2^32 := by
  rw [UInt32.toNat_ofNat',keyLen_encode_mod,Nat.mod_mod]

/-- The key is cut at its length modulo 2^32. -/
theorem length_key_decode {ts : Bytes} {out : KVPair}
    (h : decodeSorterItem32 (encodeSorterItem v pair) = .ok (ts,out)) :
    out.key.length = pair.key.length % 2^32 := by
  rw [decodeSorterItem32] at h
  split at h
  · cases h
  obtain ⟨key,hkey,h⟩ := Outcome.bind_eq_ok h
  obtain ⟨version,-,h⟩ := Outcome.bind_eq_ok h
  obtain ⟨flag,-,h⟩ := Outcome.bind_eq_ok h
  have hlen : key.length = pair.key.length % 2^32 := by
    rw [goSlice,keyLen_encode32] at hkey
    split at hkey
    · rename_i hle
      cases hkey
      simpa using hle.2
    · cases hkey
  split at h
  · cases h
    exact hlen
  · obtain ⟨value,-,h⟩ := Outcome.bind_eq_ok h
    cases h
    exact hlen

theorem goSlice_key (hkey : pair.key.length < 2^32) :
    goSlice (encodeSorterItem v pair) 0 (pair.key.length % 2^32) = .ok pair.key := by
  rw [Nat.mod_eq_of_lt hkey,encodeSorterItem_eq,append_assoc,append_assoc]
  exact goSlice_mid [] _ _ (by simp)

/-- The offset behind the version wraps around: the slice ends in front of its start. -/
theorem decode_encode_wrapped (hkey : pair.key.length < 2^32) (hlong : 2^32 ≤ pair.key.length+8) :
    decodeSorterItem32 (encodeSorterItem v pair) = .panic := by
  have hlen := length_encode v pair
  rw [decodeSorterItem32,if_neg (by omega)]
  dsimp only
  rw [UInt32.toNat_add,keyLen_encode32,goSlice_key v pair hkey,Outcome.bind_ok,goSlice_wrapped]
  · rfl
  · rw [Nat.mod_eq_of_lt hkey]
    change (pair.key.length+8) % 2^32 < pair.key.length
    omega

theorem decode_encode_short (hkey : pair.key.length+8 < 2^32) :
    decodeSorterItem32 (encodeSorterItem v pair) =
      if pair.delete then .ok (putLE 8 v.toNat,⟨true,pair.key,[]⟩)
      else (goSlice (encodeSorterItem v pair) ((pair.key.length+9) % 2^32)
        (pair.key.length+9+pair.value.length)).bind fun value =>
          .ok (putLE 8 v.toNat,⟨false,pair.key,value⟩) := by
  have hlen := length_encode v pair
  have hkey' : pair.key.length < 2^32 := by omega
  have hoffset : (UInt32.ofNat (keyLen (encodeSorterItem v pair))+8).toNat = pair.key.length+8 := by
    rw [UInt32.toNat_add,keyLen_encode32,Nat.mod_eq_of_lt hkey']
    exact Nat.mod_eq_of_lt hkey
  have hversion : goSlice (encodeSorterItem v pair) pair.key.length (pair.key.length+8) =
      .ok (putLE 8 v.toNat) := by
    rw [encodeSorterItem_eq,append_assoc _ pair.body]
    exact goSlice_mid _ _ _ (by simp)
  have hflag : goIndex (encodeSorterItem v pair) (pair.key.length+8) =
      .ok (if pair.delete then 1 else 0) := by
    have hfront : (pair.key ++ putLE 8 v.toNat).length = pair.key.length+8 := by simp
    rw [← hfront,encodeSorterItem_eq,KVPair.body,append_assoc]
    cases pair.delete with
    | true => exact goIndex_mid _ _ _
    | false => exact goIndex_mid _ _ _
  rw [decodeSorterItem32,if_neg (by omega)]
  dsimp only
  rw [UInt32.toNat_add _ 1,hoffset,keyLen_encode32,goSlice_key v pair hkey',Nat.mod_eq_of_lt hkey',
    Outcome.bind_ok,hversion,Outcome.bind_ok,hflag,Outcome.bind_ok,hlen,KVPair.body]
  cases pair.delete with
  | true => rfl
  | false =>
    have hend : pair.key.length+8+(0::pair.value).length+4-4 =
        pair.key.length+9+pair.value.length := by
      rw [length_cons]
      omega
    simp only [Bool.false_eq_true,if_false,hend]
    rfl

theorem goSlice_value (key value : Bytes) :
    goSlice (encodeSorterItem v ⟨false,key,value⟩) (key.length+9) (key.length+9+value.length) =
      .ok value := by
  have hitem : encodeSorterItem v ⟨false,key,value⟩ =
      (key ++ putLE 8 v.toNat ++ [0]) ++ value ++ putLE 4 key.length := by
    simp [encodeSorterItem_eq,KVPair.body]
  have hfront : (key ++ putLE 8 v.toNat ++ [0]).length = key.length+9 := by simp
  rw [hitem,← hfront]
  exact goSlice_mid _ _ _ rfl

/-- As long as the offsets fit in 32 bits, the bounds are kept and the item is read as with offsets
of any size. -/
theorem decodeSorterItem32_eq (hfits : pair.Fits) : decodeSorterItem32 (encodeSorterItem v pair) =
    .ok (putLE 8 v.toNat,(decodeSorterItem (encodeSorterItem v pair)).2) := by
  have hlen : pair.key.length+8+(if pair.delete then 0 else 1) < 2^32 := hfits
  rw [decode_encode_short v pair (by omega),decode_encode (by omega)]
  obtain ⟨delete,key,value⟩ := pair
  cases delete with
  | true => rfl
  | false =>
    have hoffset : key.length+9 < 2^32 := by simpa using hlen
    simp only [Bool.false_eq_true,if_false]
    rw [Nat.mod_eq_of_lt hoffset,goSlice_value]
    rfl

/-- An item gives back its timestamp and its pair if and only if the offsets fit and a deletion has
no value. -/
theorem decode_encode_iff : decodeSorterItem32 (encodeSorterItem v pair) =
    .ok (putLE 8 v.toNat,pair) ↔ pair.Fits ∧ (pair.delete → pair.value = []) := by
  by_cases hlong : 2^32 ≤ pair.key.length
  · -- The length of the key does not fit, so that only a part of it is read back.
    refine iff_of_false (fun h => ?_) fun h => ?_
    · have hlen := length_key_decode v pair h
      omega
    · have hfits : pair.key.length+8+_ < 2^32 := h.1
      omega
  by_cases hwrap : 2^32 ≤ pair.key.length+8
  · rw [decode_encode_wrapped v pair (not_le.mp hlong) hwrap]
    refine iff_of_false (fun h => nomatch h) fun h => ?_
    have hfits : pair.key.length+8+_ < 2^32 := h.1
    omega
  by_cases hfits : pair.Fits
  · rw [decodeSorterItem32_eq v pair hfits,decode_encode (not_le.mp hlong)]
    obtain ⟨delete,key,value⟩ := pair
    cases delete with
    | true => simp [hfits,eq_comm]
    | false => simp [hfits]
  · -- The offset of the value wraps around to the start of the item.
    refine iff_of_false (fun h => ?_) fun h => hfits h.1
    rw [decode_encode_short v pair (not_le.mp hwrap)] at h
    obtain ⟨delete,key,value⟩ := pair
    dsimp only [KVPair.Fits] at hlong hwrap hfits h
    cases delete with
    | true => exact hfits (not_le.mp hwrap)
    | false =>
      have hzero : (key.length+9) % 2^32 = 0 := by
        simp only [Bool.false_eq_true,if_false] at hfits
        omega
      simp only [Bool.false_eq_true,if_false,hzero] at h
      obtain ⟨bz,hbz,h⟩ := Outcome.bind_eq_ok h
      cases h
      have hlen := length_goSlice hbz
      omega

end

/-- Items whose keys are shorter than 2^32 bytes are in the order of the comparator. -/
theorem compareSorterItem_iff_compare (store : Bytes) {p q : KVPair} (hp : p.key.length < 2^32)
    (hq : q.key.length < 2^32) (v w : UInt64) :
    compareSorterItem (encodeSorterItem v p) (encodeSorterItem w q) = true ↔
      Tsrocksdb.compare (prependStoreKey store p.key ++ putLE 8 v.toNat)
        (prependStoreKey store q.key ++ putLE 8 w.toNat) < 0 := by
  rw [Tsrocksdb.compare_neg,compareSorterItem_iff,key_encode hp,key_encode hq,version_encode hp,
    version_encode hq,prependStoreKey,prependStoreKey,append_lt_append_iff,
    append_cancel_left_eq]

/-- An item is read back exactly when its offsets fit in 32 bits and it is not a deletion with a
value. Items of one store whose keys are shorter than 2^32 bytes are in the order of the
comparator, and the order of items is a strict weak one. -/
theorem sorterItem_keeps_data_and_order (store : Bytes) (v w : UInt64) (p q : KVPair) :
    (decodeSorterItem32 (encodeSorterItem v p) = .ok (putLE 8 v.toNat,p) ↔
      p.Fits ∧ (p.delete → p.value = [])) ∧
    (p.key.length < 2^32 → q.key.length < 2^32 →
      (compareSorterItem (encodeSorterItem v p) (encodeSorterItem w q) = true ↔
        Tsrocksdb.compare (prependStoreKey store p.key ++ putLE 8 v.toNat)
          (prependStoreKey store q.key ++ putLE 8 w.toNat) < 0)) ∧
    MinHeap.StrictWeak compareSorterItem :=
  ⟨decode_encode_iff v p,fun hp hq => compareSorterItem_iff_compare store hp hq v w,
    strictWeak_compareSorterItem⟩

/-- A key and a longer one that starts with it. -/
theorem sorterItem_order_of_extension :
    compareSorterItem (encodeSorterItem 1 ⟨false,[97],[1]⟩) (encodeSorterItem 2 ⟨true,[97,0],[]⟩) =
        true ↔
      Tsrocksdb.compare (prependStoreKey [98] [97] ++ putLE 8 1)
        (prependStoreKey [98] [97,0] ++ putLE 8 2) < 0 :=
  (sorterItem_keeps_data_and_order [98] 1 2 ⟨false,[97],[1]⟩ ⟨true,[97,0],[]⟩).2.1 (by decide)
    (by decide)

/-- The value of a deletion is lost, and a key of 2^32 bytes is sorted like an empty one. -/
theorem sorterItem_cut :
    decodeSorterItem32 (encodeSorterItem 1 ⟨true,[97],[7]⟩) ≠ .ok (putLE 8 1,⟨true,[97],[7]⟩) ∧
    ∃ key : Bytes, compareSorterItem (encodeSorterItem 0 ⟨false,[],[]⟩)
        (encodeSorterItem 0 ⟨false,key,[]⟩) = false ∧
      Tsrocksdb.compare (prependStoreKey [98] [] ++ putLE 8 0)
        (prependStoreKey [98] key ++ putLE 8 0) < 0 := by
  refine ⟨by decide,?_⟩
  obtain ⟨key,hlen⟩ : ∃ key : Bytes, key.length = 2^32 :=
    ⟨List.replicate (2^32) 0,length_replicate⟩
  have hcut : SorterItem.key (encodeSorterItem 0 ⟨false,key,[]⟩) = [] := by
    rw [SorterItem.key,keyLen_encode_mod,hlen,Nat.mod_self,take_zero]
  have hempty : SorterItem.key (encodeSorterItem 0 ⟨false,[],[]⟩) = [] := by decide
  refine ⟨key,?_,(Tsrocksdb.compare_neg _ _ 0 0).mpr (.inl ?_)⟩
  · rw [compareSorterItem,hcut,hempty,if_pos rfl,decide_eq_false_iff_not]
    exact UInt64.not_lt_zero
  · rw [prependStoreKey,prependStoreKey,append_lt_append_iff]
    cases key with
    | nil => cases hlen
    | cons b bs => exact nil_lt_cons b bs

end Memiavl
