import Memiavl.Cronos.System
import Memiavl.Import

/-! Sums of 64 bits with parameters: the timeout of a transfer, and the gas that the ICA precompile
asks for. -/
namespace Cronos

open Memiavl (Outcome)

/-- `timeoutTimestamp` in `ibcSendTransfer`, by the block time in nanoseconds. -/
def timeoutTimestamp (unixNano : ℕ) (params : Params) : UInt64 := .ofNat unixNano+params.ibcTimeout

/-- A slice: its bytes, and those that stand behind it in its array. -/
structure Slice where
  bytes : Bytes
  spare : Bytes := []

/-- `input[:4]`, which may reach behind the end of the slice. -/
def Slice.methodID (input : Slice) : Outcome Bytes :=
  let array := input.bytes ++ input.spare
  if array.length < 4 then .panic else .ok (array.take 4)

inductive IcaMethod
  | registerAccount
  | queryAccount
  | submitMsgs
  deriving DecidableEq

/-- `icaMethodNamesByID`, filled from the ABI. -/
def icaMethodNamesByID : Bytes → Option IcaMethod
  | [0x9a,0x20,0xd5,0x45] => some .registerAccount
  | [0x15,0xbf,0x8a,0x47] => some .queryAccount
  | [0x69,0x7b,0xfa,0x34] => some .submitMsgs
  | _ => none

def icaGasRequiredByMethod : IcaMethod → UInt64
  | .registerAccount => 300000
  | .queryAccount => 100000
  | .submitMsgs => 300000

/-- `WriteCostPerByte` of `TransientGasConfig`. -/
def writeCostPerByte : UInt64 := 3

/-- `IcaContract.RequiredGas`. -/
def icaRequiredGas (params : Params) (input : Slice) : Outcome UInt64 :=
  let baseCost := UInt64.ofNat input.bytes.length*writeCostPerByte
  input.methodID.map fun methodID =>
    match icaMethodNamesByID methodID with
    | none => baseCost
    | some method =>
      let requiredGas := icaGasRequiredByMethod method
      (if method = .submitMsgs then requiredGas+params.maxCallbackGas else requiredGas)+baseCost

theorem le_timeoutTimestamp_iff (unixNano : ℕ) (params : Params) :
    unixNano ≤ (timeoutTimestamp unixNano params).toNat ↔
      unixNano+params.ibcTimeout.toNat < 2^64 := by
  have := params.ibcTimeout.toNat_lt
  rw [timeoutTimestamp,UInt64.toNat_add,UInt64.toNat_ofNat']
  omega

/-- For an input of `n` bytes: the sum wraps at most once. -/
theorem maxCallbackGas_le_iff (params : Params) {n : ℕ} (hn : n ≤ 2^32) :
    params.maxCallbackGas ≤ 300000+params.maxCallbackGas+UInt64.ofNat n*writeCostPerByte ↔
      300000+params.maxCallbackGas.toNat+3*n < 2^64 := by
  have := params.maxCallbackGas.toNat_lt
  rw [UInt64.le_iff_toNat_le,writeCostPerByte,UInt64.toNat_add,UInt64.toNat_add,
    UInt64.toNat_mul,UInt64.toNat_ofNat']
  simp only [UInt64.reduceToNat]
  omega

theorem icaRequiredGas_submitMsgs (params : Params) {input : Slice}
    (hm : input.methodID = .ok [0x69,0x7b,0xfa,0x34]) : icaRequiredGas params input =
      .ok (300000+params.maxCallbackGas+UInt64.ofNat input.bytes.length*writeCostPerByte) := by
  rw [icaRequiredGas,hm]
  rfl

/-- With accepted parameters the timeout is not before the block and the gas of `submitMsgs` covers
the callback exactly if the sums fit into 64 bits. -/
theorem params_sums_fit_iff {env : Env} {params : Params} (_hp : params.validate env = true)
    (unixNano : ℕ) {input : Slice} (hlen : input.bytes.length ≤ 2^32)
    (hm : input.methodID = .ok [0x69,0x7b,0xfa,0x34]) :
    (unixNano ≤ (timeoutTimestamp unixNano params).toNat ↔
      unixNano+params.ibcTimeout.toNat < 2^64) ∧
    ∃ gas, icaRequiredGas params input = .ok gas ∧ (params.maxCallbackGas ≤ gas ↔
      300000+params.maxCallbackGas.toNat+3*input.bytes.length < 2^64) :=
  ⟨le_timeoutTimestamp_iff unixNano params,_,icaRequiredGas_submitMsgs params hm,
    maxCallbackGas_le_iff params hlen⟩

namespace Sample

/-- A call of `submitMsgs` without arguments. -/
def submitMsgs : Slice := ⟨[0x69,0x7b,0xfa,0x34],[]⟩

/-- In nanoseconds, a time in 2023. -/
def blockTime : ℕ := 1700000000000000000

/-- The largest timeout and the largest gas. -/
def extremeParams : Params :=
  { params with ibcTimeout := 18446744073709551615, maxCallbackGas := 18446744073709551615 }

end Sample

theorem params_sums_fit_default :
    (Sample.blockTime ≤ (timeoutTimestamp Sample.blockTime Sample.params).toNat ↔
      Sample.blockTime+Sample.params.ibcTimeout.toNat < 2^64) ∧
    ∃ gas, icaRequiredGas Sample.params Sample.submitMsgs = .ok gas ∧
      (Sample.params.maxCallbackGas ≤ gas ↔ 300000+Sample.params.maxCallbackGas.toNat+3*4 < 2^64) :=
  params_sums_fit_iff (show Sample.params.validate Sample.env = true by decide +kernel)
    Sample.blockTime (by decide) rfl

/-- The largest values are accepted: the timeout has passed already, and the gas is small. -/
theorem params_sums_wrap : Sample.extremeParams.validate Sample.env = true ∧
    timeoutTimestamp Sample.blockTime Sample.extremeParams = 1699999999999999999 ∧
    icaRequiredGas Sample.extremeParams Sample.submitMsgs = .ok 300011 := by
  refine ⟨?_,?_,?_⟩ <;> decide +kernel

end Cronos
