import Memiavl.Cronos.Types

/-! The contract `ModuleCRC21` over `DSToken`. A call returns the contract after it and the events
that the hooks of the chain may look at, or reverts. -/
namespace Cronos

def uintSize : ℕ := 2^256

def dsAdd (x y : ℕ) : Option ℕ := if x+y < uintSize then some (x+y) else none

/-- The state of a contract. Symbol and name are left out. -/
structure Token where
  denom : Bytes
  decimals : ℕ
  isSource : Bool
  owner : Address
  stopped : Bool := false
  totalSupply : ℕ := 0
  balanceOf : Address → ℕ := fun _ => 0
  allowance : Address → Address → ℕ := fun _ _ => 0

/-- The events of a contract with their data; `malformed` is data that does not unpack. -/
inductive Event
  | sendToAccount (recipient : Address) (amount : ℕ)
  | sendToIbc (sender : Address) (recipient : Bytes) (amount : ℕ)
  | sendCroToIbc (sender : Address) (recipient : Bytes) (amount : ℕ)
  | sendToIbcV2 (sender : Address) (channelId : ℕ) (recipient : Bytes) (amount : ℕ) (extraData : Bytes)
  | sendToEvmChain (sender recipient : Address) (chainId amount bridgeFee : ℕ) (extraData : Bytes)
  | cancelSendToEvmChain (sender : Address) (id : ℕ)
  | malformed
  | other

inductive TokenCall
  | approve (guy : Address) (wad : ℕ)
  | transferFrom (src dst : Address) (wad : ℕ)
  | mint (guy : Address) (wad : ℕ)
  | burn (guy : Address) (wad : ℕ)
  | stop
  | start
  | setOwner (owner : Address)
  | mintByCronosModule (addr : Address) (amount : ℕ)
  | burnByCronosModule (addr : Address) (amount : ℕ)
  | transferByCronosModule (addr : Address) (amount : ℕ)
  | transferFromCronosModule (addr : Address) (amount : ℕ)
  | sendToIbc (recipient : Bytes) (amount channelId : ℕ) (extraData : Bytes)
  | sendToEvmChain (recipient : Address) (amount chainId bridgeFee : ℕ) (extraData : Bytes)
  | cancelSendToEvmChain (id : ℕ)

namespace Token

def create (denom : Bytes) (decimals : ℕ) (isSource : Bool) (owner : Address) : Token :=
  { denom := denom, decimals := decimals, isSource := isSource, owner := owner }

/-- `isAuthorized`; no other authority is ever set. -/
def isAuthorized (t : Token) (sender : Address) : Bool := sender == t.owner

def setBalance (t : Token) (a : Address) (n : ℕ) : Token :=
  { t with balanceOf := Function.update t.balanceOf a n }

def setAllowance (t : Token) (src guy : Address) (n : ℕ) : Token :=
  { t with allowance := Function.update t.allowance src (Function.update (t.allowance src) guy n) }

/-- The part of `transferFrom` and `burn` that uses up an approval; the largest `uint256` is an
approval without limit. -/
def useAllowance (t : Token) (sender src : Address) (wad : ℕ) : Option Token :=
  if src ≠ sender ∧ t.allowance src sender ≠ uintSize-1 then
    if wad ≤ t.allowance src sender then
      some (t.setAllowance src sender (t.allowance src sender-wad))
    else none
  else some t

def approve (t : Token) (sender guy : Address) (wad : ℕ) : Option Token :=
  if t.stopped then none else some (t.setAllowance sender guy wad)

def unsafeTransfer (t : Token) (src dst : Address) (amount : ℕ) : Option Token :=
  if amount ≤ t.balanceOf src then
    let t := t.setBalance src (t.balanceOf src-amount)
    (dsAdd (t.balanceOf dst) amount).map (t.setBalance dst)
  else none

def transferFrom (t : Token) (sender src dst : Address) (wad : ℕ) : Option Token :=
  if t.stopped then none
  else (t.useAllowance sender src wad).bind fun t => t.unsafeTransfer src dst wad

def mint (t : Token) (sender guy : Address) (wad : ℕ) : Option Token :=
  if !t.isAuthorized sender || t.stopped then none
  else do
    let balance ← dsAdd (t.balanceOf guy) wad
    let totalSupply ← dsAdd t.totalSupply wad
    some { t.setBalance guy balance with totalSupply := totalSupply }

/-- `unsafe_burn`; `sub` of the total supply reverts where it would leave `uint256`. -/
def unsafeBurn (t : Token) (addr : Address) (amount : ℕ) : Option Token :=
  if amount ≤ t.balanceOf addr ∧ amount ≤ t.totalSupply then
    some { t.setBalance addr (t.balanceOf addr-amount) with totalSupply := t.totalSupply-amount }
  else none

def burn (t : Token) (sender guy : Address) (wad : ℕ) : Option Token :=
  if !t.isAuthorized sender || t.stopped then none
  else (t.useAllowance sender guy wad).bind fun t => t.unsafeBurn guy wad

/-- The move of tokens behind `send_to_ibc` and `send_to_evm_chain`. -/
def giveUp (moduleAddress : Address) (t : Token) (sender : Address) (amount : ℕ) : Option Token :=
  if t.isSource then t.transferFrom sender sender moduleAddress amount else t.unsafeBurn sender amount

/-- A call by `sender`; `moduleAddress` is the constant `module_address`. -/
def exec (moduleAddress sender : Address) (t : Token) : TokenCall → Option (Token × List Event)
  | .approve guy wad => do return (← t.approve sender guy wad,[.other])
  | .transferFrom src dst wad => do return (← t.transferFrom sender src dst wad,[.other])
  | .mint guy wad => do return (← t.mint sender guy wad,[.other])
  | .burn guy wad => do return (← t.burn sender guy wad,[.other])
  | .stop => if t.isAuthorized sender then some ({ t with stopped := true },[.other]) else none
  | .start => if t.isAuthorized sender then some ({ t with stopped := false },[.other]) else none
  | .setOwner owner =>
    if t.isAuthorized sender then some ({ t with owner := owner },[.other]) else none
  | .mintByCronosModule addr amount =>
    if sender = moduleAddress then do return (← t.mint sender addr amount,[.other]) else none
  | .burnByCronosModule addr amount =>
    if sender = moduleAddress then do return (← t.unsafeBurn addr amount,[.other]) else none
  | .transferByCronosModule addr amount =>
    if sender = moduleAddress then do return (← t.unsafeTransfer addr moduleAddress amount,[.other]) else none
  | .transferFromCronosModule addr amount => do
    return (← t.transferFrom sender moduleAddress addr amount,[.other])
  | .sendToIbc recipient amount channelId extraData => do
    let t ← t.giveUp moduleAddress sender amount
    return (t,[.other,.sendToIbcV2 sender channelId recipient amount extraData])
  | .sendToEvmChain recipient amount chainId bridgeFee extraData => do
    let total ← dsAdd amount bridgeFee
    let t ← t.giveUp moduleAddress sender total
    return (t,[.other,.sendToEvmChain sender recipient chainId amount bridgeFee extraData])
  | .cancelSendToEvmChain id => some (t,[.cancelSendToEvmChain sender id])

end Token

end Cronos
