import Mathlib

/-! Byte strings: order, fixed-width little-endian integers, variable-length integers,
and reading a piece of a longer string. -/

abbrev Bytes := List UInt8

instance linearOrderUInt8 : LinearOrder UInt8 where
  le_refl := UInt8.le_refl
  le_trans _ _ _ := UInt8.le_trans
  lt_iff_le_not_ge _ _ := by
    rw [UInt8.lt_iff_toNat_lt,UInt8.le_iff_toNat_le,UInt8.le_iff_toNat_le]
    omega
  le_antisymm _ _ := UInt8.le_antisymm
  le_total := UInt8.le_total
  toDecidableLE := inferInstance
  toDecidableEq := inferInstance
  toDecidableLT := inferInstance
  compare_eq_compareOfLessAndEq _ _ := by simp [compare]

instance linearOrderUInt32 : LinearOrder UInt32 where
  le_refl := UInt32.le_refl
  le_trans _ _ _ := UInt32.le_trans
  lt_iff_le_not_ge _ _ := by
    rw [UInt32.lt_iff_toNat_lt,UInt32.le_iff_toNat_le,UInt32.le_iff_toNat_le]
    omega
  le_antisymm _ _ := UInt32.le_antisymm
  le_total := UInt32.le_total
  toDecidableLE := inferInstance
  toDecidableEq := inferInstance
  toDecidableLT := inferInstance
  compare_eq_compareOfLessAndEq _ _ := by simp [compare]

instance linearOrderUInt64 : LinearOrder UInt64 where
  le_refl := UInt64.le_refl
  le_trans _ _ _ := UInt64.le_trans
  lt_iff_le_not_ge _ _ := by
    rw [UInt64.lt_iff_toNat_lt,UInt64.le_iff_toNat_le,UInt64.le_iff_toNat_le]
    omega
  le_antisymm _ _ := UInt64.le_antisymm
  le_total := UInt64.le_total
  toDecidableLE := inferInstance
  toDecidableEq := inferInstance
  toDecidableLT := inferInstance
  compare_eq_compareOfLessAndEq _ _ := by simp [compare]

namespace Bytes

def putLE : ℕ → ℕ → Bytes
  | 0, _ => []
  | w+1, n => UInt8.ofNat n :: putLE w (n / 256)

def getLE : Bytes → ℕ
  | [] => 0
  | b :: bs => b.toNat + 256 * getLE bs

@[simp] theorem length_putLE (w n : ℕ) : (putLE w n).length = w := by
  induction w generalizing n with
  | zero => rfl
  | succ w ih => simp [putLE,ih]

theorem getLE_putLE (w n : ℕ) : getLE (putLE w n) = n % 256 ^ w := by
  induction w generalizing n with
  | zero => simp [putLE,getLE,Nat.mod_one]
  | succ w ih =>
    simp only [putLE,getLE,ih,UInt8.toNat_ofNat']
    rw [pow_succ' 256,Nat.mod_mul,show 2 ^ 8 = 256 from rfl]

/-- `len` bytes from offset `off` on; there is no such piece past the end. -/
def slice (bs : Bytes) (off len : ℕ) : Option Bytes :=
  if off + len ≤ bs.length then some ((bs.drop off).take len) else none

theorem slice_mid (before p after : Bytes) :
    slice (before ++ p ++ after) before.length p.length = some p := by
  simp [slice]

theorem slice_mid' {bs : Bytes} (before p after : Bytes) {off len : ℕ}
    (hbs : bs = before ++ p ++ after) (hoff : off = before.length) (hlen : len = p.length) :
    slice bs off len = some p := by
  subst hbs hoff hlen
  exact slice_mid before p after

/-- Unsigned variable-length integer: seven bits a byte, low bits first,
the top bit set on every byte but the last. -/
def putUvarintAux : ℕ → ℕ → Bytes
  | 0, _ => []
  | fuel+1, n =>
    if n < 128 then [UInt8.ofNat n] else UInt8.ofNat (n % 128 + 128) :: putUvarintAux fuel (n / 128)

def putUvarint (n : ℕ) : Bytes := putUvarintAux (n+1) n

def putVarint (n : ℤ) : Bytes :=
  if 0 ≤ n then putUvarint (2*n.toNat) else putUvarint (2*(-n).toNat - 1)

example : putUvarint 300 = [172,2] := by decide

example : putVarint (-3) = [5] := by decide

end Bytes
