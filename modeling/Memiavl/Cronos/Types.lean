import Memiavl.Library.Bytes

/-! Denominations of coins and addresses of contracts, with the texts that name them. A text of the
code is its bytes. -/
namespace Cronos

abbrev Denom := Bytes

def ibcDenomPrefix : Bytes := [105,98,99,47]

def gravityDenomPrefix : Bytes := [103,114,97,118,105,116,121,48,120]

def cronosDenomPrefix : Bytes := [99,114,111,110,111,115,48,120]

def ibcDenomLen : ℕ := ibcDenomPrefix.length+64

def gravityDenomLen : ℕ := gravityDenomPrefix.length+40

def cronosDenomLen : ℕ := cronosDenomPrefix.length+40

def hasForm (start : Bytes) (len : ℕ) (denom : Denom) : Bool :=
  denom.length == len && start.isPrefixOf denom

def isValidIBCDenom : Denom → Bool := hasForm ibcDenomPrefix ibcDenomLen

def isValidGravityDenom : Denom → Bool := hasForm gravityDenomPrefix gravityDenomLen

def isValidCronosDenom : Denom → Bool := hasForm cronosDenomPrefix cronosDenomLen

def isSourceCoin (denom : Denom) : Bool := isValidCronosDenom denom

def isValidCoinDenom (denom : Denom) : Bool :=
  isValidIBCDenom denom || isValidGravityDenom denom || isValidCronosDenom denom

theorem head_of_hasForm {b : UInt8} {start : Bytes} {len : ℕ} {denom : Denom}
    (h : hasForm (b :: start) len denom = true) : ∃ rest, denom = b :: rest := by
  simp only [hasForm,Bool.and_eq_true] at h
  obtain ⟨rest,rfl⟩ := List.isPrefixOf_iff_prefix.mp h.2
  exact ⟨_,rfl⟩

theorem not_source_of_ibc {denom : Denom} (h : isValidIBCDenom denom = true) :
    isSourceCoin denom = false := by
  obtain ⟨r,rfl⟩ := head_of_hasForm h
  refine Bool.eq_false_iff.mpr fun hc => ?_
  obtain ⟨s,hs⟩ := head_of_hasForm hc
  simp at hs

/-- `ValidateDenom`: a letter and then 2 to 127 letters, digits or signs of `/:._-`. -/
def validDenom (denom : Denom) : Bool :=
  let letter := fun c : UInt8 => (65 ≤ c && c ≤ 90) || (97 ≤ c && c ≤ 122)
  match denom with
  | [] => false
  | c :: rest => letter c && 2 ≤ rest.length && rest.length ≤ 127 &&
      rest.all fun c => letter c || (48 ≤ c && c ≤ 57) || [47,58,46,95,45].contains c

structure Address where
  bytes : Bytes
  length_eq : bytes.length = 20
  deriving DecidableEq

/-- `BytesToAddress`: the last 20 bytes, with zeros in front where there are fewer. -/
def bytesToAddress (b : Bytes) : Address where
  bytes := List.replicate (20-(b.drop (b.length-20)).length) 0 ++ b.drop (b.length-20)
  length_eq := by
    simp only [List.length_append,List.length_replicate,List.length_drop]
    omega

def has0xPrefix (s : Bytes) : Bool := [48,120].isPrefixOf s || [48,88].isPrefixOf s

def fromHexChar (c : UInt8) : Option UInt8 :=
  if 48 ≤ c ∧ c ≤ 57 then some (c-48)
  else if 97 ≤ c ∧ c ≤ 102 then some (c-87)
  else if 65 ≤ c ∧ c ≤ 70 then some (c-55)
  else none

def isHex (s : Bytes) : Bool := s.length % 2 == 0 && s.all fun c => (fromHexChar c).isSome

def strip0x (s : Bytes) : Bytes := if has0xPrefix s then s.drop 2 else s

def isHexAddress (s : Bytes) : Bool := (strip0x s).length == 40 && isHex (strip0x s)

/-- `hex.DecodeString` with its error dropped: the bytes in front of the first wrong digit. -/
def hex2Bytes : Bytes → Bytes
  | a :: b :: rest =>
    match fromHexChar a, fromHexChar b with
    | some x, some y => (x*16+y) :: hex2Bytes rest
    | _, _ => []
  | _ => []

/-- `FromHex`: an odd number of digits gets a zero in front. -/
def fromHex (s : Bytes) : Bytes :=
  let s := strip0x s
  hex2Bytes (if s.length % 2 = 1 then 48 :: s else s)

def hexToAddress (s : Bytes) : Address := bytesToAddress (fromHex s)

def hexDigit (upper : Bool) (x : UInt8) : UInt8 :=
  if x < 10 then 48+x else if upper then 55+x else 87+x

/-- The digits of the bytes; `upper` says which of them, counted from `i`, are capitals. -/
def hexDigits (upper : ℕ → Bool) : ℕ → Bytes → Bytes
  | _, [] => []
  | i, b :: bs => hexDigit (upper i) (b/16) :: hexDigit (upper (i+1)) (b%16) ::
      hexDigits upper (i+2) bs

/-- `Hex`; the capitals are a checksum of the address. -/
def Address.hex (checksum : Address → ℕ → Bool) (a : Address) : Bytes :=
  48 :: 120 :: hexDigits (checksum a) 0 a.bytes

theorem div16_lt (x : UInt8) : x/16 < 16 := by
  have hx := x.toNat_lt
  rw [UInt8.lt_iff_toNat_lt,UInt8.toNat_div]
  simp only [UInt8.reduceToNat]
  omega

theorem mod16_lt (x : UInt8) : x%16 < 16 := by
  rw [UInt8.lt_iff_toNat_lt,UInt8.toNat_mod]
  simp only [UInt8.reduceToNat]
  omega

theorem fromHexChar_hexDigit (upper : Bool) {x : UInt8} (hx : x < 16) :
    fromHexChar (hexDigit upper x) = some x := by
  have h : ∀ n : Fin 16, fromHexChar (hexDigit upper (.ofNat n.val)) = some (.ofNat n.val) := by
    cases upper <;> decide
  have hlt : x.toNat < 16 := UInt8.lt_iff_toNat_lt.mp hx
  simpa using h ⟨x.toNat,hlt⟩

section
variable (upper : ℕ → Bool) (i : ℕ) (b : Bytes)

theorem hex2Bytes_hexDigits : hex2Bytes (hexDigits upper i b) = b := by
  induction b generalizing i with
  | nil => rfl
  | cons x b ih =>
    have hx := x.toNat_lt
    have hsum : x/16*16+x%16 = x := by
      rw [← UInt8.toNat_inj,UInt8.toNat_add,UInt8.toNat_mul,UInt8.toNat_div,UInt8.toNat_mod]
      simp only [UInt8.reduceToNat]
      omega
    simp only [hexDigits,hex2Bytes,fromHexChar_hexDigit _ (div16_lt x),
      fromHexChar_hexDigit _ (mod16_lt x),hsum,ih]

theorem length_hexDigits : (hexDigits upper i b).length = 2*b.length := by
  induction b generalizing i with
  | nil => rfl
  | cons x b ih =>
    simp only [hexDigits,List.length_cons,ih]
    omega

theorem all_hexDigits : (hexDigits upper i b).all (fun c => (fromHexChar c).isSome) = true := by
  induction b generalizing i with
  | nil => rfl
  | cons x b ih =>
    simp [hexDigits,fromHexChar_hexDigit _ (div16_lt x),fromHexChar_hexDigit _ (mod16_lt x),ih]

end

variable (checksum : Address → ℕ → Bool) (a : Address)

theorem strip0x_hex : strip0x (a.hex checksum) = hexDigits (checksum a) 0 a.bytes := by
  simp [strip0x,has0xPrefix,Address.hex,List.isPrefixOf]

theorem isHexAddress_hex : isHexAddress (a.hex checksum) = true := by
  simp [isHexAddress,isHex,strip0x_hex,length_hexDigits,all_hexDigits,a.length_eq]

/-- Whatever the capitals are, the text of an address gives the address again. -/
theorem hexToAddress_hex : hexToAddress (a.hex checksum) = a := by
  have hlen := a.length_eq
  have hdigits : fromHex (a.hex checksum) = a.bytes := by
    simp only [fromHex,strip0x_hex,length_hexDigits,hlen]
    exact hex2Bytes_hexDigits ..
  obtain ⟨b,hb⟩ := a
  simp only [hexToAddress,hdigits,bytesToAddress,Address.mk.injEq]
  simp [hb]

def getContractAddressFromDenom (denom : Denom) : Option Bytes :=
  let contractAddress := if gravityDenomPrefix.isPrefixOf denom then denom.drop 7
    else if cronosDenomPrefix.isPrefixOf denom then denom.drop 6 else []
  if isHexAddress contractAddress then some contractAddress else none

end Cronos
