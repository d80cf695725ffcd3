import Memiavl.Cronos.Mapping

/-! The token with 8 decimals that the module holds, and `EvmDenom` with 18 decimals that it mints
for it. -/
namespace Cronos

open Fallible List
open World (tenPowTen)

theorem sub_mod_tenPowTen (n : ℕ) : n-n % tenPowTen = tenPowTen*(n / tenPowTen) := by
  have := Nat.div_add_mod n tenPowTen
  omega

namespace Bank

variable {env : Env} {cro : Denom} {b b' b'' b₁ b₂ b₃ : Bank} {acc : Address}

/-- New `EvmDenom` is worth what came to the module, and burned `EvmDenom` what left it. -/
def Pegged (env : Env) (cro : Denom) (b b' : Bank) : Prop :=
  b'.supply env.evmDenom+tenPowTen*b.balance env.moduleAccount cro =
    b.supply env.evmDenom+tenPowTen*b'.balance env.moduleAccount cro

theorem Pegged.refl (b : Bank) : Pegged env cro b b := rfl

theorem Pegged.trans (h : Pegged env cro b b') (h' : Pegged env cro b' b'') : Pegged env cro b b'' := by
  unfold Pegged at *
  omega

/-- Neither the module's account nor any balance of `EvmDenom` was touched. -/
structure Apart (env : Env) (b b' : Bank) : Prop where
  supply : b'.supply env.evmDenom = b.supply env.evmDenom
  account : ∀ d, b'.balance env.moduleAccount d = b.balance env.moduleAccount d
  balance : ∀ a, b'.balance a env.evmDenom = b.balance a env.evmDenom

theorem Apart.pegged (h : Apart env b b') : Pegged env cro b b' := by
  rw [Pegged,h.supply,h.account]

/-- A transfer to another chain leaves the peg alone. -/
theorem apart_of_gone {t : Transfer} (h : World.Gone env t b b')
    (hdenom : env.evmDenom ≠ t.coin.denom) (hsender : env.moduleAccount ≠ t.sender) :
    Apart env b b' := by
  have hmod := fun d => share_of_account (c := t.coin) hsender d
  have hevm := fun x a => share_of_denom (c := t.coin) hdenom x a
  obtain ⟨-,b₁,hmoved,hburned⟩ | ⟨-,hmoved⟩ := h
  · refine ⟨?_,fun d => ?_,fun a => ?_⟩
    · have := hburned.supply env.evmDenom
      rw [total_of_denom hdenom] at this
      rw [← hmoved.supply]
      exact this
    · have h₁ := hmoved.balance env.moduleAccount d
      have h₂ := hburned.balance env.moduleAccount d
      rw [hmod,share_of_account env.transferAccount_ne.symm] at h₁
      rw [share_of_account env.transferAccount_ne.symm] at h₂
      omega
    · have h₁ := hmoved.balance a env.evmDenom
      have h₂ := hburned.balance a env.evmDenom
      rw [hevm,hevm] at h₁
      rw [hevm] at h₂
      omega
  · refine ⟨hmoved.supply _,fun d => ?_,fun a => ?_⟩
    · have h₁ := hmoved.balance env.moduleAccount d
      rw [hmod,share_of_account (env.escrowAddress_ne _).symm] at h₁
      omega
    · have h₁ := hmoved.balance a env.evmDenom
      rw [hevm,hevm] at h₁
      omega

section
variable (hne : cro ≠ env.evmDenom) (hacc : acc ≠ env.moduleAccount) {q : ℕ}
include hne hacc

/-- `EvmDenom` of an account is burned, and the module pays the account. -/
theorem pegged_release (h₁ : Moved acc env.moduleAccount ⟨env.evmDenom,tenPowTen*q⟩ b b₁)
    (h₂ : Burned env.moduleAccount ⟨env.evmDenom,tenPowTen*q⟩ b₁ b₂)
    (h₃ : Moved env.moduleAccount acc ⟨cro,q⟩ b₂ b₃) :
    Pegged env cro b b₃ ∧ b₃.balance acc env.evmDenom+tenPowTen*q = b.balance acc env.evmDenom := by
  constructor
  · have hsupply := h₂.supply env.evmDenom
    have hb₁ := h₁.balance env.moduleAccount cro
    have hb₂ := h₂.balance env.moduleAccount cro
    have hb₃ := h₃.balance env.moduleAccount cro
    simp only [Coin.share,Coin.total,hne,hacc.symm,and_false,and_true,if_true,if_false]
      at hsupply hb₁ hb₂ hb₃
    rw [h₁.supply] at hsupply
    have hcro : b.balance env.moduleAccount cro = b₃.balance env.moduleAccount cro+q := by omega
    rw [Pegged,h₃.supply,hcro,Nat.mul_add]
    omega
  · have hb₁ := h₁.balance acc env.evmDenom
    have hb₂ := h₂.balance acc env.evmDenom
    have hb₃ := h₃.balance acc env.evmDenom
    simp only [Coin.share,hne.symm,hacc,and_false,and_true,if_true,if_false] at hb₁ hb₂ hb₃
    omega

/-- The module takes the coins of an account, and `EvmDenom` is minted for them. -/
theorem pegged_deposit (h₁ : Moved acc env.moduleAccount ⟨cro,q⟩ b b₁)
    (h₂ : Minted env.moduleAccount ⟨env.evmDenom,q*tenPowTen⟩ b₁ b₂)
    (h₃ : Moved env.moduleAccount acc ⟨env.evmDenom,q*tenPowTen⟩ b₂ b₃) : Pegged env cro b b₃ := by
  have hsupply := h₂.supply env.evmDenom
  have hb₁ := h₁.balance env.moduleAccount cro
  have hb₂ := h₂.balance env.moduleAccount cro
  have hb₃ := h₃.balance env.moduleAccount cro
  simp only [Coin.share,Coin.total,hne,hacc.symm,and_false,and_true,if_true,if_false]
    at hsupply hb₁ hb₂ hb₃
  rw [h₁.supply] at hsupply
  have hcro : b₃.balance env.moduleAccount cro = b.balance env.moduleAccount cro+q := by omega
  rw [Pegged,h₃.supply,hcro,Nat.mul_add,hsupply,Nat.mul_comm q]
  omega

end

end Bank

namespace World

variable {env : Env} {w w' : World} {acc : Address} {destination : Bytes} {channelId : Option ℕ} {c : Coin}

theorem ne_of_blocked (h : env.blocked acc = false) : acc ≠ env.moduleAccount := by
  rintro rfl
  rw [env.blocked_moduleAccount] at h
  cases h

/-- The `EvmDenom` that the transfer of a coin takes from its sender. -/
def taken (env : Env) (c : Coin) : ℕ := if c.denom = env.evmDenom then c.amount-c.amount % tenPowTen else 0

/-- The coin that the transfer of a coin hands to the transfer module. -/
def handed (env : Env) (cro : Denom) (c : Coin) : Option Coin :=
  if c.denom = env.evmDenom then
    if c.amount < tenPowTen then none else some ⟨cro,c.amount / tenPowTen⟩
  else some c

/-- What a transfer of coins by `acc` does to the peg, to the account and to the transfers. -/
structure Exchanged (env : Env) (acc : Address) (destination : Bytes) (coins : List Coin)
    (w w' : World) : Prop where
  store : w'.store = w.store
  pegged : Bank.Pegged env w.store.getParams.ibcCroDenom w.bank w'.bank
  balance : w'.bank.balance acc env.evmDenom+(coins.map (taken env)).sum =
    w.bank.balance acc env.evmDenom
  sent : ∃ ts : List Transfer, w'.sent = w.sent ++ ts ∧
    ts.map Transfer.coin = coins.filterMap (handed env w.store.getParams.ibcCroDenom) ∧
    ∀ t ∈ ts, t.sender = acc ∧ t.receiver = destination

theorem Exchanged.refl (w : World) : Exchanged env acc destination [] w w :=
  ⟨rfl,.refl _,by simp,[],by simp⟩

theorem Exchanged.cons {coins : List Coin} {w'' : World} (h : Exchanged env acc destination [c] w w')
    (h' : Exchanged env acc destination coins w' w'') :
    Exchanged env acc destination (c :: coins) w w'' := by
  obtain ⟨ts,hsent,hcoins,hts⟩ := h.sent
  obtain ⟨ts',hsent',hcoins',hts'⟩ := h'.sent
  refine ⟨h'.store.trans h.store,h.pegged.trans (h.store ▸ h'.pegged),?_,ts ++ ts',?_,?_,?_⟩
  · have h₁ := h.balance
    have h₂ := h'.balance
    simp only [map_cons,map_nil,sum_cons,sum_nil] at h₁ ⊢
    omega
  · rw [hsent',hsent,append_assoc]
  · rw [map_append,hcoins,hcoins',h.store,← filterMap_append]
    rfl
  · intro t ht
    exact (mem_append.mp ht).elim (hts t) (hts' t)

section
variable (hne : w.store.getParams.ibcCroDenom ≠ env.evmDenom)
include hne

theorem exchanged_ibcTransferCoin (h : ibcTransferCoin env acc destination channelId w c = .ok w') :
    Exchanged env acc destination [c] w w' := by
  obtain ⟨hdenom,hsmall,rfl⟩ | ⟨hdenom,hlarge,hblocked,b₁,b₂,b₃,h₁,h₂,h₃,channel,h⟩ |
    ⟨hdenom,-,channel,h⟩ := ibcTransferCoin_ok h
  · refine ⟨rfl,.refl _,?_,[],by simp,?_,by simp⟩
    · simp [taken,hdenom,Nat.mod_eq_of_lt hsmall]
    · simp [handed,hdenom,hsmall]
  · rw [sub_mod_tenPowTen] at h₁ h₂
    have hacc := ne_of_blocked hblocked
    obtain ⟨hpegged,hbalance⟩ := Bank.pegged_release hne hacc h₁ h₂ h₃
    obtain ⟨-,b,hgone,rfl⟩ := transfer_ok h
    have hapart := Bank.apart_of_gone hgone hne.symm hacc.symm
    refine ⟨rfl,hpegged.trans hapart.pegged,?_,[_],rfl,?_,by simp⟩
    · simpa [taken,hdenom,sub_mod_tenPowTen,hapart.balance] using hbalance
    · simp [handed,hdenom,not_lt.mpr hlarge]
  · obtain ⟨hblocked,b,hgone,rfl⟩ := transfer_ok h
    have hapart := Bank.apart_of_gone hgone (Ne.symm hdenom) (ne_of_blocked hblocked).symm
    refine ⟨rfl,hapart.pegged,?_,[_],rfl,?_,by simp⟩
    · simp [taken,hdenom,hapart.balance]
    · simp [handed,hdenom]

theorem exchanged_foldlM {coins : List Coin}
    (h : coins.foldlM (ibcTransferCoin env acc destination channelId) w = .ok w') :
    Exchanged env acc destination coins w w' := by
  induction coins generalizing w with
  | nil =>
    cases h
    exact .refl _
  | cons c coins ih =>
    rw [foldlM_cons,bind_eq_ok] at h
    obtain ⟨w₁,h₁,h⟩ := h
    have hfirst := exchanged_ibcTransferCoin hne h₁
    exact hfirst.cons (ih (hfirst.store ▸ hne) h)

/-- A conversion keeps the peg if `EvmDenom` is no coin that conversions burn. -/
theorem pegged_convertVoucher (hsource : isSourceCoin env.evmDenom = false)
    (h : convertVoucher env acc w c = .ok w') :
    Bank.Pegged env w.store.getParams.ibcCroDenom w.bank w'.bank := by
  obtain ⟨hdenom,hblocked,b₁,b₂,b₃,h₁,h₂,h₃,rfl⟩ | ⟨hdenom,autoDeploy,h⟩ := convertVoucher_ok h
  · obtain ⟨d,q⟩ := c
    obtain rfl : d = w.store.getParams.ibcCroDenom := hdenom
    exact Bank.pegged_deposit hne (ne_of_blocked hblocked) h₁ h₂ h₃
  · obtain ⟨-,contract,w₁,b,hfind,h⟩ := convertCoinFromNativeToCRC21_ok h
    have hbank : w₁.bank = w.bank := by
      obtain ⟨-,h⟩ | ⟨-,-,-,-,h⟩ := findContract_ok hfind
      · exact (congrArg bank h :)
      · exact (congrArg bank h :)
    have hcro := fun x a => share_of_denom (Ne.symm hdenom) x a
    rw [hbank] at h
    obtain ⟨hkind,⟨b₁,hmoved,hburned⟩,hcall⟩ | ⟨-,hmoved,hcall⟩ := h
    · obtain ⟨tokens,rfl,-⟩ := callModuleCRC21_ok hcall
      have hevm : env.evmDenom ≠ c.denom := fun heq => by
        rw [heq,hkind] at hsource
        cases hsource
      have hsupply := hburned.supply env.evmDenom
      have h₁ := hmoved.balance env.moduleAccount w.store.getParams.ibcCroDenom
      have h₂ := hburned.balance env.moduleAccount w.store.getParams.ibcCroDenom
      rw [total_of_denom hevm,hmoved.supply] at hsupply
      rw [hcro,hcro] at h₁
      rw [hcro] at h₂
      rw [Bank.Pegged,← hsupply,show b.balance env.moduleAccount w.store.getParams.ibcCroDenom =
        w.bank.balance env.moduleAccount w.store.getParams.ibcCroDenom by omega]
      rfl
    · obtain ⟨tokens,rfl,-⟩ := callModuleCRC21_ok hcall
      have h₁ := hmoved.balance env.moduleAccount w.store.getParams.ibcCroDenom
      rw [hcro,hcro] at h₁
      rw [Bank.Pegged,← hmoved.supply,show b.balance env.moduleAccount w.store.getParams.ibcCroDenom =
        w.bank.balance env.moduleAccount w.store.getParams.ibcCroDenom by omega]

end

end World

def Op.Exchanges : Op → Prop
  | .convertVouchersToEvmCoins .. | .onRecvVouchers .. | .ibcTransferCoins .. => True
  | _ => False

namespace World

section
variable {env : Env} {w₀ w w' : World} {op : Op}

theorem pegged_convertVouchersToEvmCoins {source : Bytes} {coins : List Coin}
    (hsource : isSourceCoin env.evmDenom = false)
    (hne : w.store.getParams.ibcCroDenom ≠ env.evmDenom)
    (h : w.convertVouchersToEvmCoins env source coins = .ok w') :
    w'.store.getParams = w.store.getParams ∧
      Bank.Pegged env w.store.getParams.ibcCroDenom w.bank w'.bank := by
  obtain ⟨acc,-,h⟩ := convertVouchersToEvmCoins_ok h
  refine foldlM_invariant (I := fun u => u.store.getParams = w.store.getParams ∧
    Bank.Pegged env w.store.getParams.ibcCroDenom w.bank u.bank) h ⟨rfl,.refl _⟩ ?_
  rintro c u v ⟨hparams,hpegged⟩ hv
  have hstep := pegged_convertVoucher (hparams ▸ hne) hsource hv
  rw [hparams] at hstep
  exact ⟨(grown_convertVoucher hv).keeps.2.1.trans hparams,hpegged.trans hstep⟩

theorem exchanged_ibcTransferCoins {source destination : Bytes} {coins : List Coin}
    {channelId : Option ℕ} (hne : w.store.getParams.ibcCroDenom ≠ env.evmDenom)
    (h : w.ibcTransferCoins env source destination coins channelId = .ok w') :
    ∃ acc, env.accAddressFromBech32 source = some acc ∧
      Exchanged env acc destination coins w w' := by
  obtain ⟨acc,hacc,h⟩ := ibcTransferCoins_ok h
  exact ⟨acc,hacc,exchanged_foldlM hne h⟩

theorem pegged_step (hsource : isSourceCoin env.evmDenom = false)
    (hne : w.store.getParams.ibcCroDenom ≠ env.evmDenom) (hop : op.Exchanges)
    (h : w.step env op = some w') : w'.store.getParams = w.store.getParams ∧
      Bank.Pegged env w.store.getParams.ibcCroDenom w.bank w'.bank := by
  rw [step_eq_some] at h
  cases op with
  | convertVouchersToEvmCoins source coins => exact pegged_convertVouchersToEvmCoins hsource hne h
  | onRecvVouchers tokens receiver =>
    obtain h | rfl := onRecvVouchers_ok h
    · exact pegged_convertVouchersToEvmCoins hsource hne h
    · exact ⟨rfl,.refl _⟩
  | ibcTransferCoins source destination coins channelId =>
    obtain ⟨acc,-,hex⟩ := exchanged_ibcTransferCoins hne h
    exact ⟨congrArg Store.getParams hex.store,hex.pegged⟩
  | _ => exact hop.elim

/-- Over any calls the supply of `EvmDenom` changes by 10¹⁰ times what the module holds more or
less of the other token, and a transfer takes from its sender whole units only. -/
theorem cro_peg (hsource : isSourceCoin env.evmDenom = false)
    (hne : w₀.store.getParams.ibcCroDenom ≠ env.evmDenom)
    (hrun : Transition.Run (step env) (fun _ op => op.Exchanges) w₀ w) :
    w.bank.supply env.evmDenom+
        10^10*w₀.bank.balance env.moduleAccount w₀.store.getParams.ibcCroDenom =
      w₀.bank.supply env.evmDenom+
        10^10*w.bank.balance env.moduleAccount w₀.store.getParams.ibcCroDenom ∧
    ∀ source destination coins channelId w',
      w.step env (.ibcTransferCoins source destination coins channelId) = some w' →
      ∃ acc, env.accAddressFromBech32 source = some acc ∧ Exchanged env acc destination coins w w' := by
  have hinv : w.store.getParams = w₀.store.getParams ∧
      Bank.Pegged env w₀.store.getParams.ibcCroDenom w₀.bank w.bank := by
    refine hrun.invariant (I := fun w => w.store.getParams = w₀.store.getParams ∧
      Bank.Pegged env w₀.store.getParams.ibcCroDenom w₀.bank w.bank) ⟨rfl,.refl _⟩ ?_
    rintro u op v ⟨hparams,hpegged⟩ hop h
    obtain ⟨hparams',hstep⟩ := pegged_step hsource (hparams ▸ hne) hop h
    rw [hparams] at hstep
    exact ⟨hparams'.trans hparams,hpegged.trans hstep⟩
  refine ⟨hinv.2,fun source destination coins channelId w' h => ?_⟩
  exact exchanged_ibcTransferCoins (hinv.1 ▸ hne) (step_eq_some.mp h)

end

open Sample in
/-- Five units come in, and a transfer of a little more than two sends two. -/
theorem cro_peg_exchange : ∃ w₁ w,
    world.step env (.convertVouchersToEvmCoins (address 9).bytes [⟨ibcDenom 48,5⟩]) = some w₁ ∧
    w₁.step env (.ibcTransferCoins (address 9).bytes [1] [⟨env.evmDenom,2*10^10+7⟩] none) = some w ∧
    w.bank.supply env.evmDenom+10^10*0 = 100+10^10*3 ∧
    w.bank.balance (address 9) env.evmDenom+2*10^10 = w₁.bank.balance (address 9) env.evmDenom ∧
    w.sent = [⟨address 9,[1],⟨ibcDenom 48,2⟩,0⟩] := by
  have hfirst : (world.step env
      (.convertVouchersToEvmCoins (address 9).bytes [⟨ibcDenom 48,5⟩])).isSome = true := by
    decide +kernel
  obtain ⟨w₁,hw₁⟩ := Option.isSome_iff_exists.mp hfirst
  have hruns : ((world.step env
      (.convertVouchersToEvmCoins (address 9).bytes [⟨ibcDenom 48,5⟩])).bind fun w =>
      w.step env (.ibcTransferCoins (address 9).bytes [1] [⟨env.evmDenom,2*10^10+7⟩] none)).any
      (fun w => w.sent = [⟨address 9,[1],⟨ibcDenom 48,2⟩,0⟩] ∧
        w.bank.balance env.moduleAccount (ibcDenom 48) = 3) = true := by
    decide +kernel
  obtain ⟨w,hw,h⟩ := (Option.any_eq_true ..).mp hruns
  rw [hw₁,Option.bind_some] at hw
  obtain ⟨hsent,hheld⟩ := of_decide_eq_true h
  have hrun : Transition.Run (step env) (fun _ op => op.Exchanges) world w₁ :=
    .single ⟨_,by trivial,hw₁⟩
  have hsource : isSourceCoin env.evmDenom = false := by decide +kernel
  have hne : world.store.getParams.ibcCroDenom ≠ env.evmDenom := by decide +kernel
  obtain ⟨acc,hacc,hex⟩ := (cro_peg hsource hne hrun).2 _ _ _ _ _ hw
  obtain rfl : address 9 = acc := Option.some.inj hacc
  have hpeg := (cro_peg hsource hne (hrun.tail ⟨_,by trivial,hw⟩)).1
  refine ⟨w₁,w,hw₁,hw,?_,?_,hsent⟩
  · rw [show world.store.getParams.ibcCroDenom = ibcDenom 48 from rfl,hheld] at hpeg
    exact hpeg
  · have hbalance := hex.balance
    simpa [taken,tenPowTen] using hbalance

end World

namespace Sample

/-- The chain whose `EvmDenom` has the form of a token of this chain. -/
def sourceEnv : Env := { env with evmDenom := cronosDenom 49 }

end Sample

namespace World

open Sample in
/-- An `EvmDenom` that has a contract of its own is burned by a conversion. -/
theorem cro_peg_burned : ∃ w₁ w,
    world.step sourceEnv (.tokenMappingChange
      ⟨cronosDenom 49,(address 7).hex sourceEnv.checksum,[],0⟩) = some w₁ ∧
    w₁.step sourceEnv (.convertVouchersToEvmCoins (address 9).bytes [⟨cronosDenom 49,5⟩]) = some w ∧
    w₁.store.getParams.ibcCroDenom ≠ sourceEnv.evmDenom ∧
    w.bank.supply sourceEnv.evmDenom+5 = w₁.bank.supply sourceEnv.evmDenom ∧
    w.bank.balance sourceEnv.moduleAccount (ibcDenom 48) =
      w₁.bank.balance sourceEnv.moduleAccount (ibcDenom 48) := by
  have hfirst : (world.step sourceEnv (.tokenMappingChange
      ⟨cronosDenom 49,(address 7).hex sourceEnv.checksum,[],0⟩)).any (fun w =>
      w.store.getParams.ibcCroDenom ≠ sourceEnv.evmDenom ∧ w.bank.supply sourceEnv.evmDenom = 100 ∧
        w.bank.balance sourceEnv.moduleAccount (ibcDenom 48) = 0) = true := by
    decide +kernel
  obtain ⟨w₁,hw₁,h₁⟩ := (Option.any_eq_true ..).mp hfirst
  have hruns : ((world.step sourceEnv (.tokenMappingChange
      ⟨cronosDenom 49,(address 7).hex sourceEnv.checksum,[],0⟩)).bind fun w =>
      w.step sourceEnv (.convertVouchersToEvmCoins (address 9).bytes [⟨cronosDenom 49,5⟩])).any
      (fun w => w.bank.supply sourceEnv.evmDenom = 95 ∧
        w.bank.balance sourceEnv.moduleAccount (ibcDenom 48) = 0) = true := by
    decide +kernel
  obtain ⟨w,hw,h⟩ := (Option.any_eq_true ..).mp hruns
  rw [hw₁,Option.bind_some] at hw
  obtain ⟨hne,hsupply₁,hheld₁⟩ := of_decide_eq_true h₁
  obtain ⟨hsupply,hheld⟩ := of_decide_eq_true h
  exact ⟨w₁,w,hw₁,hw,hne,by rw [hsupply,hsupply₁],by rw [hheld,hheld₁]⟩

end World

end Cronos
