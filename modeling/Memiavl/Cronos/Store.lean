import Memiavl.Cronos.Token

/-! The store of the module: the contracts of each denomination, the denomination of each contract,
the parameters and the permissions. -/
namespace Cronos

structure Env where
  /-- `AccAddressFromBech32` and `String` of an address. -/
  accAddressFromBech32 : Bytes → Option Address
  bech32 : Address → Bytes
  accAddressFromBech32_bech32 : ∀ a, accAddressFromBech32 (bech32 a) = some a
  toLower : Bytes → Bytes
  /-- Which digits of an address `Hex` writes as capitals. -/
  checksum : Address → ℕ → Bool
  /-- The account that may change parameters. -/
  authority : Bytes
  /-- The accounts of the modules `cronos` and `transfer`, and the address that calls contracts. -/
  moduleAccount : Address
  transferAccount : Address
  evmModuleAddress : Address
  transferAccount_ne : transferAccount ≠ moduleAccount
  /-- Accounts that do not take coins from a module. -/
  blocked : Address → Bool
  blocked_moduleAccount : blocked moduleAccount = true
  /-- The address of the contract that `evmModuleAddress` creates with a nonce. -/
  createAddress : ℕ → Address
  evmDenom : Denom
  /-- The account that holds the coins sent through a channel. -/
  escrowAddress : ℕ → Address
  escrowAddress_ne : ∀ c, escrowAddress c ≠ moduleAccount
  /-- The channel a voucher came through, by the text behind `ibc/`. -/
  traceChannel : Bytes → Option ℕ
  /-- Whether the transfer module takes a transfer: sender, destination, denom, amount, channel. -/
  transferAllowed : Address → Bytes → Denom → ℕ → ℕ → Bool
  /-- What code that is no `ModuleCRC21` does when the module calls it: it reverts, or it makes
  calls of its own. -/
  foreign : Address → TokenCall → Option (List (Address × TokenCall))
  /-- No code stands at the address that calls contracts. -/
  foreign_evmModuleAddress : ∀ call, foreign evmModuleAddress call = some []

inductive Err
  | invalidParams
  | invalidAuthority
  | unauthorized
  | invalidDenom (denom : Denom)
  | invalidContract (contract : Bytes)
  | alreadyRegistered (contract : Address)
  | invalidAddress
  | emptyDestination
  | ibcDisabled
  | insufficientFunds
  | notSupported (denom : Denom)
  | noContract (denom : Denom)
  | notMapped (contract : Address)
  | callFailed (contract : Address)
  | deployFailed
  | invalidChannel
  | transferRefused
  | panic
  deriving DecidableEq

structure Params where
  ibcCroDenom : Denom := []
  ibcTimeout : UInt64 := 0
  cronosAdmin : Bytes := []
  enableAutoDeployment : Bool := false
  maxCallbackGas : UInt64 := 0
  deriving DecidableEq

def Params.validate (env : Env) (p : Params) : Bool :=
  isValidIBCDenom p.ibcCroDenom &&
    (p.cronosAdmin.isEmpty || (env.accAddressFromBech32 p.cronosAdmin).isSome)

/-- The key ranges of the store, each without the byte in front of its keys. -/
structure Store where
  external : Finmap fun _ : Denom => Address := ∅
  auto : Finmap fun _ : Denom => Address := ∅
  denoms : Finmap fun _ : Address => Denom := ∅
  params : Option Params := none
  permissions : Finmap fun _ : Address => UInt64 := ∅

namespace Store

def getExternalContractByDenom (s : Store) (denom : Denom) : Option Address := s.external.lookup denom

def getAutoContractByDenom (s : Store) (denom : Denom) : Option Address := s.auto.lookup denom

/-- `GetContractByDenom`: the external contract comes first. -/
def getContractByDenom (s : Store) (denom : Denom) : Option Address :=
  match s.getExternalContractByDenom denom with
  | some contract => some contract
  | none => s.getAutoContractByDenom denom

/-- `GetDenomByContract`; an empty value reads as none. -/
def getDenomByContract (s : Store) (contract : Address) : Option Denom :=
  match s.denoms.lookup contract with
  | none => none
  | some denom => if denom.length = 0 then none else some denom

def setExternalContractForDenom (s : Store) (denom : Denom) (address : Address) : Except Err Store :=
  if (s.getDenomByContract address).isSome then .error (.alreadyRegistered address)
  else
    let denoms := match s.getExternalContractByDenom denom with
      | some existing => s.denoms.erase existing
      | none => s.denoms
    .ok { s with external := s.external.insert denom address, denoms := denoms.insert address denom }

/-- `DeleteExternalContractForDenom`; without a mapping there is nothing to delete. -/
def deleteExternalContractForDenom (s : Store) (denom : Denom) : Store :=
  match s.getExternalContractByDenom denom with
  | none => s
  | some contract =>
    { s with external := s.external.erase denom, denoms := s.denoms.erase contract }

def setAutoContractForDenom (s : Store) (denom : Denom) (address : Address) : Store :=
  { s with auto := s.auto.insert denom address, denoms := s.denoms.insert address denom }

def getParams (s : Store) : Params := s.params.getD {}

def setParams (env : Env) (params : Params) (s : Store) : Except Err Store :=
  if params.validate env then .ok { s with params := some params } else .error .invalidParams

def getPermissions (s : Store) (address : Address) : UInt64 := (s.permissions.lookup address).getD 0

def canChangeTokenMapping : UInt64 := 1

def hasPermission (env : Env) (s : Store) (accounts : List Address) (permissionsToCheck : UInt64) :
    Bool :=
  permissionsToCheck == 0 || accounts.any fun account =>
    s.getParams.cronosAdmin == env.bech32 account ||
      s.getPermissions account &&& permissionsToCheck == permissionsToCheck

structure TokenMapping where
  denom : Denom
  contract : Bytes

def mappings (env : Env) (m : Finmap fun _ : Denom => Address) : List TokenMapping :=
  (m.keys.sort (· ≤ ·)).filterMap fun denom =>
    (m.lookup denom).map fun contract => ⟨denom,contract.hex env.checksum⟩

def getExternalContracts (env : Env) (s : Store) : List TokenMapping := mappings env s.external

def getAutoContracts (env : Env) (s : Store) : List TokenMapping := mappings env s.auto

structure GenesisState where
  params : Params
  externalContracts : List TokenMapping := []
  autoContracts : List TokenMapping := []

def checkMapping (m : TokenMapping) : Except Err Address :=
  if !isValidIBCDenom m.denom && !isValidGravityDenom m.denom then .error (.invalidDenom m.denom)
  else if !isHexAddress m.contract then .error (.invalidContract m.contract)
  else .ok (hexToAddress m.contract)

def initExternal (s : Store) (m : TokenMapping) : Except Err Store := do
  let contract ← checkMapping m
  s.setExternalContractForDenom m.denom contract

def initAuto (s : Store) (m : TokenMapping) : Except Err Store := do
  let contract ← checkMapping m
  return s.setAutoContractForDenom m.denom contract

/-- `InitGenesis`; an error is a panic. -/
def initGenesis (env : Env) (s : Store) (genState : GenesisState) : Except Err Store := do
  let s ← s.setParams env genState.params
  let s ← genState.externalContracts.foldlM initExternal s
  genState.autoContracts.foldlM initAuto s

def exportGenesis (env : Env) (s : Store) : GenesisState :=
  { params := s.getParams, externalContracts := s.getExternalContracts env,
    autoContracts := s.getAutoContracts env }

end Store

end Cronos
