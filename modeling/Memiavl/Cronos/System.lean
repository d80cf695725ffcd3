import Memiavl.Cronos.Keeper
import Memiavl.Library.Transition

/-! Messages, proposals, transactions with their hooks, and packets from other chains: everything
that moves the state of the module. -/
namespace Cronos

structure MsgUpdateTokenMapping where
  sender : Bytes
  denom : Denom
  contract : Bytes
  symbol : Bytes
  decimal : ℕ

/-- `TokenMappingChangeProposal`, without title and description. -/
structure TokenMappingChangeProposal where
  denom : Denom
  contract : Bytes
  symbol : Bytes
  decimal : ℕ

structure Log where
  address : Address
  event : Event

/-- The signature of an event, which selects its handler. -/
inductive Signature
  | sendToAccount
  | sendToIbc
  | sendCroToIbc
  | sendToIbcV2
  | sendToEvmChain
  | cancelSendToEvmChain
  | unknown
  deriving DecidableEq

def Event.signature : Event → Signature
  | .sendToAccount .. => .sendToAccount
  | .sendToIbc .. => .sendToIbc
  | .sendCroToIbc .. => .sendCroToIbc
  | .sendToIbcV2 .. => .sendToIbcV2
  | .sendToEvmChain .. => .sendToEvmChain
  | .cancelSendToEvmChain .. => .cancelSendToEvmChain
  | .malformed | .other => .unknown

namespace World

def updatedMetadata (env : Env) (w : World) (msg : MsgUpdateTokenMapping) : Metadata :=
  let metadata := (w.bank.metadata.lookup msg.denom).getD ⟨msg.denom,msg.denom,[],[],[]⟩
  let display := env.toLower msg.symbol
  { metadata with
    symbol := msg.symbol
    display := display
    denomUnits := if msg.decimal ≠ 0 then [(metadata.base,0),(display,msg.decimal)]
      else [(metadata.base,0)] }

def setExternal (w : World) (denom : Denom) (contract : Address) : Except Err World := do
  return { w with store := ← w.store.setExternalContractForDenom denom contract }

/-- `RegisterOrUpdateTokenMapping`. For a source coin the text of the contract is not checked. -/
def registerOrUpdateTokenMapping (env : Env) (msg : MsgUpdateTokenMapping) (w : World) :
    Except Err World :=
  if isSourceCoin msg.denom then
    if (getContractAddressFromDenom msg.denom).isNone then .error (.invalidContract msg.denom)
    else
      let metadata := w.bank.metadata.insert msg.denom (w.updatedMetadata env msg)
      setExternal { w with bank := { w.bank with metadata := metadata } } msg.denom
        (hexToAddress msg.contract)
  else if msg.contract.isEmpty then
    .ok { w with store := w.store.deleteExternalContractForDenom msg.denom }
  else if !isHexAddress msg.contract then .error (.invalidContract msg.contract)
  else w.setExternal msg.denom (hexToAddress msg.contract)

/-- The message: `ValidateBasic`, the permission of the signer, and the update. -/
def updateTokenMapping (env : Env) (msg : MsgUpdateTokenMapping) (w : World) : Except Err World :=
  match env.accAddressFromBech32 msg.sender with
  | none => .error .invalidAddress
  | some sender =>
    if !isValidCoinDenom msg.denom then .error (.invalidDenom msg.denom)
    else if !isHexAddress msg.contract then .error (.invalidContract msg.contract)
    else if !w.store.hasPermission env [sender] Store.canChangeTokenMapping then .error .unauthorized
    else w.registerOrUpdateTokenMapping env msg

def tokenMappingChange (env : Env) (p : TokenMappingChangeProposal) (w : World) : Except Err World :=
  if !isValidCoinDenom p.denom then .error (.invalidDenom p.denom)
  else w.registerOrUpdateTokenMapping env ⟨[],p.denom,p.contract,p.symbol,p.decimal⟩

def updateParams (env : Env) (authority : Bytes) (params : Params) (w : World) : Except Err World :=
  if authority ≠ env.authority then .error .invalidAuthority
  else do return { w with store := ← w.store.setParams env params }

def updatePermissions (env : Env) (source address : Bytes) (permissions : UInt64) (w : World) :
    Except Err World :=
  if w.store.getParams.cronosAdmin ≠ source then .error .unauthorized
  else match env.accAddressFromBech32 address with
    | none => .error .invalidAddress
    | some acc =>
      .ok { w with store := { w.store with permissions := w.store.permissions.insert acc permissions } }

def handleSendToAccount (contract recipient : Address) (amount : ℕ) (w : World) : Except Err World :=
  match w.store.getDenomByContract contract with
  | none => .error (.notMapped contract)
  | some denom => do
    let coin ← newCoin denom amount
    let coins ← newCoins coin
    w.onBank (Bank.sendCoins contract recipient coins)

/-- `handle` of `SendToIbcHandler`: the coins go to the sender first, who gets them back if the
transfer fails later. -/
def handleSendToIbc (env : Env) (contract sender : Address) (recipient : Bytes) (amount : ℕ)
    (channelId : Option ℕ) (w : World) : Except Err World :=
  match w.store.getDenomByContract contract with
  | none => .error (.notMapped contract)
  | some denom =>
    if !isValidIBCDenom denom && !isValidCronosDenom denom then .error (.notSupported denom)
    else do
      let coin ← newCoin denom amount
      let coins ← newCoins coin
      let w ← if isSourceCoin denom then do
          let w ← w.onBank (Bank.mintCoins env.moduleAccount coins)
          w.onBank (Bank.sendCoinsFromModuleToAccount env env.moduleAccount sender coins)
        else w.onBank (Bank.sendCoins contract sender coins)
      w.ibcTransferCoins env (env.bech32 sender) recipient coins channelId

def handleSendCroToIbc (env : Env) (contract sender : Address) (recipient : Bytes) (amount : ℕ)
    (w : World) : Except Err World := do
  let coin ← newCoin env.evmDenom amount
  let coins ← newCoins coin
  let w ← w.onBank (Bank.sendCoins contract sender coins)
  w.ibcTransferCoins env (env.bech32 sender) recipient coins none

/-- The handlers that the app registers, by the signature of their event. -/
def handlers : List Signature := [.sendToAccount,.sendToIbc,.sendCroToIbc,.sendToIbcV2]

/-- `Handle` of the handler that is registered for the event. -/
def handle (env : Env) (w : World) (log : Log) : Except Err World :=
  match log.event with
  | .sendToAccount recipient amount => w.handleSendToAccount log.address recipient amount
  | .sendToIbc sender recipient amount =>
    w.handleSendToIbc env log.address sender recipient amount none
  | .sendCroToIbc sender recipient amount => w.handleSendCroToIbc env log.address sender recipient amount
  | .sendToIbcV2 sender channelId recipient amount _ =>
    w.handleSendToIbc env log.address sender recipient amount (some channelId)
  -- Data that does not unpack is logged and ignored.
  | _ => .ok w

/-- One log of `PostTxProcessing`: a log without a registered handler is passed over. -/
def postLog (env : Env) (w : World) (log : Log) : Except Err World :=
  if handlers.contains log.event.signature then w.handle env log else .ok w

def postTxProcessing (env : Env) (logs : List Log) (w : World) : Except Err World :=
  logs.foldlM (postLog env) w

inductive TxStep
  /-- A call of a contract that runs `ModuleCRC21`. -/
  | call (sender contract : Address) (call : TokenCall)
  /-- A log of another contract. -/
  | log (contract : Address) (event : Event)
  /-- A new contract that runs `ModuleCRC21`. -/
  | create (sender contract : Address) (denom : Bytes) (decimals : ℕ) (isSource : Bool)

/-- The steps of a transaction, with the logs so far. No transaction has the address that calls
contracts for the module as a sender, and new contracts have their own addresses. -/
def txStep (env : Env) (p : World × List Log) : TxStep → Except Err (World × List Log)
  | .call sender contract call =>
    match p.1.tokens contract with
    | none => .error (.callFailed contract)
    | some t =>
      if sender = env.evmModuleAddress then .error (.callFailed contract)
      else match t.exec env.evmModuleAddress sender call with
        | none => .error (.callFailed contract)
        | some (t,events) =>
          .ok (p.1.setToken contract t,p.2 ++ events.map fun event => ⟨contract,event⟩)
  | .log contract event =>
    if (p.1.tokens contract).isSome then .error (.callFailed contract)
    else .ok (p.1,p.2 ++ [⟨contract,event⟩])
  | .create sender contract denom decimals isSource =>
    if (p.1.tokens contract).isSome || sender = env.evmModuleAddress then .error .deployFailed
    else .ok (p.1.setToken contract (.create denom decimals isSource sender),p.2)

/-- A transaction; what a hook refuses is rolled back with it. -/
def ethereumTx (env : Env) (steps : List TxStep) (w : World) : Except Err World := do
  let (w,logs) ← steps.foldlM (txStep env) (w,[])
  w.postTxProcessing env logs

/-- The coins of a packet that arrives or comes back: new vouchers, or coins from escrow. -/
inductive Credit
  | voucher (hash : Bytes) (amount : ℕ)
  | escrow (channel : ℕ) (denom : Denom) (amount : ℕ)

def Credit.coin : Credit → Coin
  | .voucher hash amount => ⟨ibcDenomPrefix ++ hash,amount⟩
  | .escrow _ denom amount => ⟨denom,amount⟩

def credit (env : Env) (receiver : Address) (c : Credit) (w : World) : Except Err World :=
  if env.blocked receiver then .error .unauthorized
  else match c with
    | .voucher hash _ =>
      if hash.length ≠ 64 then .error .panic
      else do
        let w ← w.onBank (Bank.mintCoins env.transferAccount [c.coin])
        w.onBank (Bank.sendCoins env.transferAccount receiver [c.coin])
    | .escrow channel _ _ => w.onBank (Bank.sendCoins (env.escrowAddress channel) receiver [c.coin])

/-- `OnRecvPacket` with the receiver, or a refund with the sender of the packet. -/
def receivePacket (env : Env) (receiver : Address) (c : Credit) (w : World) : Except Err World := do
  let w ← w.credit env receiver c
  if w.canBeConverted c.coin.denom then do
    let coins ← newCoins c.coin
    w.onRecvVouchers env coins (env.bech32 receiver)
  else return w

end World

/-- What may happen to the module. -/
inductive Op
  | updateTokenMapping (msg : MsgUpdateTokenMapping)
  | tokenMappingChange (p : TokenMappingChangeProposal)
  | updateParams (authority : Bytes) (params : Params)
  | updatePermissions (source address : Bytes) (permissions : UInt64)
  | convertVouchersToEvmCoins (source : Bytes) (coins : List Coin)
  | onRecvVouchers (tokens : List Coin) (receiver : Bytes)
  | ibcTransferCoins (source destination : Bytes) (coins : List Coin) (channelId : Option ℕ)
  | convertCoinFromNativeToCRC21 (sender : Address) (coin : Coin) (autoDeploy : Bool)
  | convertCoinFromCRC21ToNative (contract receiver : Address) (amount : ℕ)
  | ethereumTx (steps : List World.TxStep)
  | receivePacket (receiver : Address) (c : World.Credit)

namespace World

def apply (env : Env) (w : World) : Op → Except Err World
  | .updateTokenMapping msg => w.updateTokenMapping env msg
  | .tokenMappingChange p => w.tokenMappingChange env p
  | .updateParams authority params => w.updateParams env authority params
  | .updatePermissions source address permissions =>
    w.updatePermissions env source address permissions
  | .convertVouchersToEvmCoins source coins => w.convertVouchersToEvmCoins env source coins
  | .onRecvVouchers tokens receiver => w.onRecvVouchers env tokens receiver
  | .ibcTransferCoins source destination coins channelId =>
    w.ibcTransferCoins env source destination coins channelId
  | .convertCoinFromNativeToCRC21 sender coin autoDeploy =>
    w.convertCoinFromNativeToCRC21 env sender coin autoDeploy
  | .convertCoinFromCRC21ToNative contract receiver amount =>
    w.convertCoinFromCRC21ToNative env contract receiver amount
  | .ethereumTx steps => w.ethereumTx env steps
  | .receivePacket receiver c => w.receivePacket env receiver c

/-- One operation; a failed one is rolled back and leaves no trace. -/
def step (env : Env) (w : World) (op : Op) : Option World := (w.apply env op).toOption

theorem step_eq_some {env : Env} {w w' : World} {op : Op} :
    w.step env op = some w' ↔ w.apply env op = .ok w' := by
  unfold step
  cases w.apply env op <;> simp [Except.toOption]

end World

namespace Sample

def address (i : UInt8) : Address := ⟨i :: List.replicate 19 0,rfl⟩

def created (k : ℕ) : Address := ⟨1 :: Bytes.putLE 19 k,by simp⟩

/-- The denomination `ibc/` with the byte `c` 64 times behind it. -/
def ibcDenom (c : UInt8) : Denom := ibcDenomPrefix ++ List.replicate 64 c

/-- The denomination `cronos0x` with 40 times the digit `c` behind it. -/
def cronosDenom (c : UInt8) : Denom := cronosDenomPrefix ++ List.replicate 40 c

/-- Addresses are their own texts, accounts 2 and 3 belong to modules, and every transfer is taken. -/
def env : Env where
  accAddressFromBech32 b := if h : b.length = 20 then some ⟨b,h⟩ else none
  bech32 a := a.bytes
  accAddressFromBech32_bech32 a := dif_pos a.length_eq
  toLower b := b
  checksum _ _ := false
  authority := [0]
  moduleAccount := address 2
  transferAccount := address 3
  evmModuleAddress := address 4
  transferAccount_ne := by decide
  blocked a := a = address 2 ∨ a = address 3
  blocked_moduleAccount := by decide
  createAddress := created
  evmDenom := [115,116,97,107,101]
  escrowAddress _ := address 5
  escrowAddress_ne _ := by decide
  traceChannel _ := some 0
  transferAllowed _ _ _ _ _ := true
  foreign _ _ := some []
  foreign_evmModuleAddress _ := rfl

def params : Params := { ibcCroDenom := ibcDenom 48, enableAutoDeployment := true }

def world : World where
  bank := { balance := fun a _ => if a = address 9 then 100 else 0, supply := fun _ => 100 }
  store := { params := some params }
  tokens _ := none
  nonce := 0
  sent := []

theorem injOn_created : Set.InjOn created (Set.Iio (2^64)) := by
  intro j hj k hk hjk
  have h := congrArg Bytes.getLE (List.cons.inj (Address.mk.inj hjk)).2
  rw [Bytes.getLE_putLE,Bytes.getLE_putLE] at h
  have hj : j < 2^64 := hj
  have hk : k < 2^64 := hk
  omega

end Sample

end Cronos
