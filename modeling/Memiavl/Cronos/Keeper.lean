import Memiavl.Cronos.Store

/-! The keeper of the module over the bank, the contracts and the transfer module. A function returns
the state after it, or an error or a panic that the caller rolls back. -/
namespace Cronos

/-- A coin; a negative amount panics wherever coins are made of it. -/
structure Coin where
  denom : Denom
  amount : ℕ
  deriving DecidableEq

/-- `sdk.NewCoins` of one coin: a zero amount is dropped, a malformed denomination panics. -/
def newCoins (c : Coin) : Except Err (List Coin) :=
  if c.amount = 0 then .ok []
  else if validDenom c.denom then .ok [c] else .error .panic

def newCoin (denom : Denom) (amount : ℕ) : Except Err Coin :=
  if validDenom denom then .ok ⟨denom,amount⟩ else .error .panic

/-- `Metadata`, with the denomination and exponent of each unit. -/
structure Metadata where
  base : Bytes
  name : Bytes
  symbol : Bytes
  display : Bytes
  denomUnits : List (Bytes × ℕ)
  deriving DecidableEq

structure Bank where
  balance : Address → Denom → ℕ
  supply : Denom → ℕ
  metadata : Finmap fun _ : Denom => Metadata := ∅

namespace Bank

def setBalance (b : Bank) (a : Address) (d : Denom) (n : ℕ) : Bank :=
  { b with balance := Function.update b.balance a (Function.update (b.balance a) d n) }

def setSupply (b : Bank) (d : Denom) (n : ℕ) : Bank :=
  { b with supply := Function.update b.supply d n }

def subCoin (a : Address) (b : Bank) (c : Coin) : Except Err Bank :=
  if c.amount ≤ b.balance a c.denom then
    .ok (b.setBalance a c.denom (b.balance a c.denom-c.amount))
  else .error .insufficientFunds

/-- A balance is an integer of 256 bits; a larger one panics. -/
def addCoin (a : Address) (b : Bank) (c : Coin) : Except Err Bank :=
  if b.balance a c.denom+c.amount < uintSize then
    .ok (b.setBalance a c.denom (b.balance a c.denom+c.amount))
  else .error .panic

def sendCoins (src dst : Address) (coins : List Coin) (b : Bank) : Except Err Bank := do
  let b ← coins.foldlM (subCoin src) b
  coins.foldlM (addCoin dst) b

def sendCoinsFromAccountToModule (src moduleAccount : Address) (coins : List Coin) (b : Bank) :
    Except Err Bank :=
  sendCoins src moduleAccount coins b

def sendCoinsFromModuleToAccount (env : Env) (moduleAccount dst : Address) (coins : List Coin)
    (b : Bank) : Except Err Bank :=
  if env.blocked dst then .error .unauthorized else sendCoins moduleAccount dst coins b

def addSupply (b : Bank) (c : Coin) : Except Err Bank :=
  if b.supply c.denom+c.amount < uintSize then .ok (b.setSupply c.denom (b.supply c.denom+c.amount))
  else .error .panic

def subSupply (b : Bank) (c : Coin) : Except Err Bank :=
  if c.amount ≤ b.supply c.denom then .ok (b.setSupply c.denom (b.supply c.denom-c.amount))
  else .error .panic

def mintCoins (moduleAccount : Address) (coins : List Coin) (b : Bank) : Except Err Bank := do
  let b ← coins.foldlM (addCoin moduleAccount) b
  coins.foldlM addSupply b

def burnCoins (moduleAccount : Address) (coins : List Coin) (b : Bank) : Except Err Bank := do
  let b ← coins.foldlM (subCoin moduleAccount) b
  coins.foldlM subSupply b

end Bank

structure Transfer where
  sender : Address
  receiver : Bytes
  coin : Coin
  channel : ℕ
  deriving DecidableEq

structure World where
  bank : Bank
  store : Store
  /-- The contracts that run `ModuleCRC21`. -/
  tokens : Address → Option Token
  /-- The nonce of `EVMModuleAddress`. -/
  nonce : ℕ
  sent : List Transfer

namespace World

def onBank (w : World) (f : Bank → Except Err Bank) : Except Err World := do
  return { w with bank := ← f w.bank }

def setToken (w : World) (a : Address) (t : Token) : World :=
  { w with tokens := Function.update w.tokens a (some t) }

/-- A call by code that goes on when the call reverts. -/
def tryCall (env : Env) (sender : Address) (w : World) (c : Address × TokenCall) : World :=
  match w.tokens c.1 with
  | none => w
  | some t =>
    match t.exec env.evmModuleAddress sender c.2 with
    | none => w
    | some (t,_) => w.setToken c.1 t

/-- `CallModuleCRC21`: a call by `EVMModuleAddress` outside of a transaction, so no hook sees its
events. -/
def callModuleCRC21 (env : Env) (contract : Address) (call : TokenCall) (w : World) :
    Except Err World :=
  match w.tokens contract with
  | some t =>
    match t.exec env.evmModuleAddress env.evmModuleAddress call with
    | some (t,_) => .ok (w.setToken contract t)
    | none => .error (.callFailed contract)
  | none =>
    match env.foreign contract call with
    | some calls => .ok (calls.foldl (tryCall env contract) w)
    | none => .error (.callFailed contract)

/-- `DeployModuleCRC21`; code at the address already makes it fail, and so does the last nonce. -/
def deployModuleCRC21 (env : Env) (denom : Denom) (w : World) : Except Err (Address × World) :=
  let contract := env.createAddress w.nonce
  if (w.tokens contract).isSome || 2^64 ≤ w.nonce+1 then .error .deployFailed
  else .ok (contract,
    { w.setToken contract (.create denom 0 false env.evmModuleAddress) with nonce := w.nonce+1 })

/-- The contract for a denomination, deployed if there is none. -/
def findContract (env : Env) (denom : Denom) (autoDeploy : Bool) (w : World) :
    Except Err (Address × World) :=
  match w.store.getContractByDenom denom with
  | some contract => .ok (contract,w)
  | none =>
    if !autoDeploy then .error (.noContract denom)
    else do
      let (contract,w) ← w.deployModuleCRC21 env denom
      return (contract,{ w with store := w.store.setAutoContractForDenom denom contract })

def convertCoinFromNativeToCRC21 (env : Env) (sender : Address) (coin : Coin) (autoDeploy : Bool)
    (w : World) : Except Err World :=
  if !isValidCoinDenom coin.denom then .error (.notSupported coin.denom)
  else do
    let (contract,w) ← w.findContract env coin.denom autoDeploy
    let coins ← newCoins coin
    if isSourceCoin coin.denom then do
      let w ← w.onBank (Bank.sendCoinsFromAccountToModule sender env.moduleAccount coins)
      let w ← w.onBank (Bank.burnCoins env.moduleAccount coins)
      w.callModuleCRC21 env contract (.transferFromCronosModule sender coin.amount)
    else do
      let w ← w.onBank (Bank.sendCoins sender contract coins)
      w.callModuleCRC21 env contract (.mintByCronosModule sender coin.amount)

def convertCoinFromCRC21ToNative (env : Env) (contract receiver : Address) (amount : ℕ) (w : World) :
    Except Err World :=
  match w.store.getDenomByContract contract with
  | none => .error (.notMapped contract)
  | some denom => do
    let coin ← newCoin denom amount
    let coins ← newCoins coin
    if isSourceCoin denom then do
      let w ← w.callModuleCRC21 env contract (.transferByCronosModule receiver amount)
      let w ← w.onBank (Bank.mintCoins env.moduleAccount coins)
      w.onBank (Bank.sendCoinsFromModuleToAccount env env.moduleAccount receiver coins)
    else do
      let w ← w.onBank (Bank.sendCoins contract receiver coins)
      w.callModuleCRC21 env contract (.burnByCronosModule receiver amount)

def tenPowTen : ℕ := 10^10

def convertVoucher (env : Env) (acc : Address) (w : World) (c : Coin) : Except Err World :=
  let params := w.store.getParams
  if c.denom = params.ibcCroDenom then
    if params.ibcCroDenom = [] then .error .ibcDisabled
    else do
      let coins ← newCoins c
      let w ← w.onBank (Bank.sendCoinsFromAccountToModule acc env.moduleAccount coins)
      -- A product of more than 256 bits panics.
      if uintSize ≤ c.amount*tenPowTen then .error .panic
      else do
        let amount18dec ← newCoin env.evmDenom (c.amount*tenPowTen)
        let coins ← newCoins amount18dec
        let w ← w.onBank (Bank.mintCoins env.moduleAccount coins)
        w.onBank (Bank.sendCoinsFromModuleToAccount env env.moduleAccount acc coins)
  else w.convertCoinFromNativeToCRC21 env acc c params.enableAutoDeployment

def convertVouchersToEvmCoins (env : Env) (source : Bytes) (coins : List Coin) (w : World) :
    Except Err World :=
  match env.accAddressFromBech32 source with
  | none => .error .invalidAddress
  | some acc => coins.foldlM (convertVoucher env acc) w

/-- `GetSourceChannelID`: the denomination is `ibc/` and a hash that the transfer module knows. -/
def getSourceChannelID (env : Env) (denom : Denom) : Option ℕ :=
  match denom.splitOn 47 with
  | [_,hash] => env.traceChannel hash
  | _ => none

/-- `Transfer` of the transfer module: a voucher goes back through its channel and is burned, every
other coin is held in escrow. -/
def transfer (env : Env) (t : Transfer) (w : World) : Except Err World :=
  if env.blocked t.sender || !env.transferAllowed t.sender t.receiver t.coin.denom t.coin.amount
      t.channel then .error .transferRefused
  else do
    let w ← if getSourceChannelID env t.coin.denom = some t.channel then do
        let w ← w.onBank (Bank.sendCoins t.sender env.transferAccount [t.coin])
        w.onBank (Bank.burnCoins env.transferAccount [t.coin])
      else w.onBank (Bank.sendCoins t.sender (env.escrowAddress t.channel) [t.coin])
    return { w with sent := w.sent ++ [t] }

/-- `ibcSendTransfer`; only `channel-n` with `n` of 64 bits is the name of a channel. -/
def ibcSendTransfer (env : Env) (sender : Address) (destination : Bytes) (coin : Coin)
    (channelId : Option ℕ) (w : World) : Except Err World :=
  if isSourceCoin coin.denom then
    match channelId with
    | some channel =>
      if channel < 2^64 then w.transfer env ⟨sender,destination,coin,channel⟩
      else .error .invalidChannel
    | none => .error .invalidChannel
  else
    match getSourceChannelID env coin.denom with
    | some channel => w.transfer env ⟨sender,destination,coin,channel⟩
    | none => .error .invalidChannel

def ibcTransferCoin (env : Env) (acc : Address) (destination : Bytes) (channelId : Option ℕ)
    (w : World) (c : Coin) : Except Err World :=
  if c.denom = env.evmDenom then
    let amountToBurn := c.amount-c.amount % tenPowTen
    -- Less than one unit of the other token is not sent.
    if amountToBurn = 0 then .ok w
    else do
      let coin ← newCoin env.evmDenom amountToBurn
      let coins ← newCoins coin
      let w ← w.onBank (Bank.sendCoinsFromAccountToModule acc env.moduleAccount coins)
      let w ← w.onBank (Bank.burnCoins env.moduleAccount coins)
      let ibcCoin ← newCoin w.store.getParams.ibcCroDenom (c.amount / tenPowTen)
      let ibcCoins ← newCoins ibcCoin
      let w ← w.onBank (Bank.sendCoinsFromModuleToAccount env env.moduleAccount acc ibcCoins)
      w.ibcSendTransfer env acc destination ibcCoin none
  else if !isValidIBCDenom c.denom && !isValidCronosDenom c.denom then .error (.notSupported c.denom)
  else if (w.store.getContractByDenom c.denom).isNone then .error (.noContract c.denom)
  else w.ibcSendTransfer env acc destination c channelId

def ibcTransferCoins (env : Env) (source destination : Bytes) (coins : List Coin)
    (channelId : Option ℕ) (w : World) : Except Err World :=
  match env.accAddressFromBech32 source with
  | none => .error .invalidAddress
  | some acc =>
    if destination.isEmpty then .error .emptyDestination
    else coins.foldlM (ibcTransferCoin env acc destination channelId) w

/-- `OnRecvVouchers`: a failed conversion is rolled back and forgotten, a panic is not. -/
def onRecvVouchers (env : Env) (tokens : List Coin) (receiver : Bytes) (w : World) :
    Except Err World :=
  match w.convertVouchersToEvmCoins env receiver tokens with
  | .ok w' => .ok w'
  | .error .panic => .error .panic
  | .error _ => .ok w

def canBeConverted (w : World) (denom : Denom) : Bool :=
  denom == w.store.getParams.ibcCroDenom || (w.store.getContractByDenom denom).isSome

end World

end Cronos
