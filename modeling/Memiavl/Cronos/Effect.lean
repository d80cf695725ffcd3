import Memiavl.Cronos.System
import Memiavl.Library.Fallible

/-! What each function does to balances, supplies, contracts and the store when it succeeds. -/
namespace Cronos

open Fallible

/-- The amount of the coin at the account `x`, as seen at `a` and `d`. -/
def Coin.share (c : Coin) (x a : Address) (d : Denom) : ℕ := if a = x ∧ d = c.denom then c.amount else 0

def Coin.total (c : Coin) (d : Denom) : ℕ := if d = c.denom then c.amount else 0

variable {c : Coin} {d : Denom}

theorem newCoins_ok {coins : List Coin} (h : newCoins c = .ok coins) :
    coins = [] ∧ c.amount = 0 ∨ coins = [c] := by
  unfold newCoins at h
  split_ifs at h with h0 hd
  · exact .inl ⟨(Except.ok.inj h).symm,h0⟩
  · exact .inr (Except.ok.inj h).symm

theorem newCoin_ok {n : ℕ} (h : newCoin d n = .ok c) : c = ⟨d,n⟩ := by
  unfold newCoin at h
  split_ifs at h
  exact (Except.ok.inj h).symm

theorem newCoin_bind_ok {n : ℕ} {α : Type} {g : Coin → Except Err α} {x : α}
    (h : (newCoin d n >>= g) = .ok x) : g ⟨d,n⟩ = .ok x := by
  obtain ⟨coin,hcoin,h⟩ := bind_eq_ok.mp h
  rwa [newCoin_ok hcoin] at h

theorem share_zero (h : c.amount = 0) (x a : Address) (d : Denom) : c.share x a d = 0 := by
  simp [Coin.share,h]

theorem total_zero (h : c.amount = 0) (d : Denom) : c.total d = 0 := by
  simp [Coin.total,h]

theorem share_of_account {x a : Address} (h : a ≠ x) (d : Denom) : c.share x a d = 0 := by
  simp [Coin.share,h]

theorem share_of_denom (h : d ≠ c.denom) (x a : Address) : c.share x a d = 0 := by
  simp [Coin.share,h]

theorem total_of_denom (h : d ≠ c.denom) : c.total d = 0 := by
  simp [Coin.total,h]

namespace Bank

variable {b b' : Bank} {coins : List Coin} {src dst acct : Address}

/-- The coin went from one account to another, which may be the same. -/
structure Moved (src dst : Address) (c : Coin) (b b' : Bank) : Prop where
  balance : ∀ a d, b'.balance a d+c.share src a d = b.balance a d+c.share dst a d
  supply : ∀ d, b'.supply d = b.supply d

structure Minted (acct : Address) (c : Coin) (b b' : Bank) : Prop where
  balance : ∀ a d, b'.balance a d = b.balance a d+c.share acct a d
  supply : ∀ d, b'.supply d = b.supply d+c.total d

structure Burned (acct : Address) (c : Coin) (b b' : Bank) : Prop where
  balance : ∀ a d, b'.balance a d+c.share acct a d = b.balance a d
  supply : ∀ d, b'.supply d+c.total d = b.supply d

theorem balance_setBalance (b : Bank) (x : Address) (e : Denom) (n : ℕ) (a : Address) (d : Denom) :
    (b.setBalance x e n).balance a d = if a = x ∧ d = e then n else b.balance a d := by
  by_cases ha : a = x
  · subst ha
    by_cases hd : d = e <;> simp [setBalance,hd]
  · simp [setBalance,ha]

theorem subCoin_ok (h : subCoin acct b c = .ok b') :
    (∀ a d, b'.balance a d+c.share acct a d = b.balance a d) ∧ b'.supply = b.supply := by
  unfold subCoin at h
  rw [ite_ok_error] at h
  obtain ⟨hle,rfl⟩ := h
  refine ⟨fun a d => ?_,rfl⟩
  rw [balance_setBalance,Coin.share]
  split_ifs with had
  · rw [had.1,had.2]
    omega
  · omega

theorem addCoin_ok (h : addCoin acct b c = .ok b') :
    (∀ a d, b'.balance a d = b.balance a d+c.share acct a d) ∧ b'.supply = b.supply := by
  unfold addCoin at h
  rw [ite_ok_error] at h
  obtain ⟨-,rfl⟩ := h
  refine ⟨fun a d => ?_,rfl⟩
  rw [balance_setBalance,Coin.share]
  split_ifs with had
  · rw [had.1,had.2]
  · omega

theorem addSupply_ok (h : b.addSupply c = .ok b') :
    b'.balance = b.balance ∧ ∀ d, b'.supply d = b.supply d+c.total d := by
  unfold addSupply at h
  rw [ite_ok_error] at h
  obtain ⟨-,rfl⟩ := h
  refine ⟨rfl,fun d => ?_⟩
  by_cases hd : d = c.denom <;> simp [setSupply,Coin.total,hd]

theorem subSupply_ok (h : b.subSupply c = .ok b') :
    b'.balance = b.balance ∧ ∀ d, b'.supply d+c.total d = b.supply d := by
  unfold subSupply at h
  rw [ite_ok_error] at h
  obtain ⟨hle,rfl⟩ := h
  refine ⟨rfl,fun d => ?_⟩
  by_cases hd : d = c.denom
  · simp only [setSupply,Coin.total,hd,Function.update_self,if_true]
    omega
  · simp [setSupply,Coin.total,hd]

theorem foldlM_one {f : Bank → Coin → Except Err Bank} (h : [c].foldlM f b = .ok b') :
    f b c = .ok b' := by
  rw [List.foldlM_cons,bind_eq_ok] at h
  obtain ⟨b₁,h₁,h⟩ := h
  cases h
  exact h₁

theorem sendCoins_one (h : sendCoins src dst [c] b = .ok b') : Moved src dst c b b' := by
  obtain ⟨b₁,h₁,h⟩ := bind_eq_ok.mp h
  obtain ⟨hsub,hs₁⟩ := subCoin_ok (foldlM_one h₁)
  obtain ⟨hadd,hs₂⟩ := addCoin_ok (foldlM_one h)
  refine ⟨fun a d => ?_,fun d => by rw [hs₂,hs₁]⟩
  have := hsub a d
  have := hadd a d
  omega

theorem mintCoins_one (h : mintCoins acct [c] b = .ok b') : Minted acct c b b' := by
  obtain ⟨b₁,h₁,h⟩ := bind_eq_ok.mp h
  obtain ⟨hadd,hs⟩ := addCoin_ok (foldlM_one h₁)
  obtain ⟨hb,hsupply⟩ := addSupply_ok (foldlM_one h)
  exact ⟨fun a d => by rw [hb,hadd],fun d => by rw [hsupply,hs]⟩

theorem burnCoins_one (h : burnCoins acct [c] b = .ok b') : Burned acct c b b' := by
  obtain ⟨b₁,h₁,h⟩ := bind_eq_ok.mp h
  obtain ⟨hsub,hs⟩ := subCoin_ok (foldlM_one h₁)
  obtain ⟨hb,hsupply⟩ := subSupply_ok (foldlM_one h)
  exact ⟨fun a d => by rw [hb,hsub],fun d => by rw [hsupply,hs]⟩

section
variable (hc : newCoins c = .ok coins)
include hc

theorem sendCoins_ok (h : sendCoins src dst coins b = .ok b') : Moved src dst c b b' := by
  rcases newCoins_ok hc with ⟨rfl,h0⟩ | rfl
  · cases h
    exact ⟨fun a d => by simp [share_zero h0],fun d => rfl⟩
  · exact sendCoins_one h

theorem mintCoins_ok (h : mintCoins acct coins b = .ok b') : Minted acct c b b' := by
  rcases newCoins_ok hc with ⟨rfl,h0⟩ | rfl
  · cases h
    exact ⟨fun a d => by simp [share_zero h0],fun d => by simp [total_zero h0]⟩
  · exact mintCoins_one h

theorem burnCoins_ok (h : burnCoins acct coins b = .ok b') : Burned acct c b b' := by
  rcases newCoins_ok hc with ⟨rfl,h0⟩ | rfl
  · cases h
    exact ⟨fun a d => by simp [share_zero h0],fun d => by simp [total_zero h0]⟩
  · exact burnCoins_one h

theorem sendCoinsFromModuleToAccount_ok {env : Env}
    (h : sendCoinsFromModuleToAccount env src dst coins b = .ok b') :
    env.blocked dst = false ∧ Moved src dst c b b' := by
  unfold sendCoinsFromModuleToAccount at h
  rw [ite_error_eq_ok] at h
  exact ⟨by simpa using h.1,sendCoins_ok hc h.2⟩

end

end Bank

namespace World

variable {env : Env} {w w' : World} {a contract sender receiver acc : Address} {coin : Coin}
  {denom : Denom} {amount : ℕ}

theorem onBank_ok {f : Bank → Except Err Bank} (h : w.onBank f = .ok w') :
    ∃ b, f w.bank = .ok b ∧ w' = { w with bank := b } := by
  obtain ⟨b,hb,h⟩ := bind_eq_ok.mp h
  exact ⟨b,hb,(Except.ok.inj h).symm⟩

theorem onBank_bind_ok {f : Bank → Except Err Bank} {g : World → Except Err World}
    (h : (w.onBank f >>= g) = .ok w') :
    ∃ b, f w.bank = .ok b ∧ g { w with bank := b } = .ok w' := by
  obtain ⟨w₁,h₁,h⟩ := bind_eq_ok.mp h
  obtain ⟨b,hb,rfl⟩ := onBank_ok h₁
  exact ⟨b,hb,h⟩

/-- A call of a contract by anyone but the module. -/
def OutsideCall (env : Env) (tokens tokens' : Address → Option Token) : Prop :=
  ∃ sender contract t t' call events, sender ≠ env.evmModuleAddress ∧ tokens contract = some t ∧
    t.exec env.evmModuleAddress sender call = some (t',events) ∧
    tokens' = Function.update tokens contract (some t')

abbrev Outside (env : Env) := Relation.ReflTransGen (OutsideCall env)

theorem tryCall_outside (hs : sender ≠ env.evmModuleAddress) (p : Address × TokenCall) :
    tryCall env sender w p = { w with tokens := (tryCall env sender w p).tokens } ∧
      Outside env w.tokens (tryCall env sender w p).tokens := by
  unfold tryCall
  cases ht : w.tokens p.1 with
  | none => exact ⟨rfl,.refl⟩
  | some t =>
    cases he : t.exec env.evmModuleAddress sender p.2 with
    | none =>
      simp only [he]
      exact ⟨trivial,.refl⟩
    | some r =>
      simp only [he]
      exact ⟨rfl,.single ⟨sender,p.1,t,r.1,p.2,r.2,hs,ht,he,rfl⟩⟩

theorem foldl_tryCall_outside (hs : sender ≠ env.evmModuleAddress) (calls : List (Address × TokenCall))
    (w : World) : calls.foldl (tryCall env sender) w =
      { w with tokens := (calls.foldl (tryCall env sender) w).tokens } ∧
      Outside env w.tokens (calls.foldl (tryCall env sender) w).tokens := by
  induction calls generalizing w with
  | nil => exact ⟨rfl,.refl⟩
  | cons p calls ih =>
    obtain ⟨heq,hout⟩ := @tryCall_outside env w sender hs p
    obtain ⟨heq',hout'⟩ := ih (tryCall env sender w p)
    rw [List.foldl_cons]
    refine ⟨?_,hout.trans hout'⟩
    rw [heq',heq]

section
variable {call : TokenCall} (h : w.callModuleCRC21 env contract call = .ok w')
include h

theorem callModuleCRC21_ok :
    ∃ tokens, w' = { w with tokens := tokens } ∧
      ((∃ t t' events, w.tokens contract = some t ∧
          t.exec env.evmModuleAddress env.evmModuleAddress call = some (t',events) ∧
          tokens = Function.update w.tokens contract (some t')) ∨
        w.tokens contract = none ∧ Outside env w.tokens tokens) := by
  unfold callModuleCRC21 at h
  cases ht : w.tokens contract with
  | some t =>
    simp only [ht] at h
    cases he : t.exec env.evmModuleAddress env.evmModuleAddress call with
    | none =>
      rw [he] at h
      cases h
    | some r =>
      rw [he] at h
      cases h
      exact ⟨_,rfl,.inl ⟨t,r.1,r.2,rfl,he,rfl⟩⟩
  | none =>
    simp only [ht] at h
    cases hf : env.foreign contract call with
    | none =>
      rw [hf] at h
      cases h
    | some calls =>
      rw [hf] at h
      cases h
      by_cases hm : contract = env.evmModuleAddress
      · subst hm
        rw [env.foreign_evmModuleAddress] at hf
        cases hf
        exact ⟨_,rfl,.inr ⟨rfl,.refl⟩⟩
      · obtain ⟨heq,hout⟩ := foldl_tryCall_outside hm calls w
        exact ⟨_,heq,.inr ⟨rfl,hout⟩⟩

theorem call_frame : w'.bank = w.bank ∧ w'.store = w.store := by
  obtain ⟨tokens,rfl,-⟩ := callModuleCRC21_ok h
  exact ⟨rfl,rfl⟩

theorem call_self {t : Token} (ht : w.tokens contract = some t) :
    ∃ t' events, t.exec env.evmModuleAddress env.evmModuleAddress call = some (t',events) ∧
      w'.tokens contract = some t' := by
  obtain ⟨tokens,rfl,⟨t₁,t',events,ht₁,hexec,rfl⟩ | ⟨hnone,-⟩⟩ := callModuleCRC21_ok h
  · obtain rfl := Option.some.inj (ht.symm.trans ht₁)
    exact ⟨t',events,hexec,by simp⟩
  · simp [hnone] at ht

end

/-- The contract was known, or it is a new one at the next address. -/
theorem findContract_ok {autoDeploy : Bool} {r : Address × World}
    (h : w.findContract env denom autoDeploy = .ok r) :
    w.store.getContractByDenom denom = some r.1 ∧ r.2 = w ∨
    w.store.getContractByDenom denom = none ∧ r.1 = env.createAddress w.nonce ∧
      w.tokens (env.createAddress w.nonce) = none ∧ w.nonce+1 < 2^64 ∧
      r.2 = { w with
        tokens := Function.update w.tokens (env.createAddress w.nonce)
          (some (.create denom 0 false env.evmModuleAddress))
        nonce := w.nonce+1
        store := w.store.setAutoContractForDenom denom (env.createAddress w.nonce) } := by
  unfold findContract at h
  cases hc : w.store.getContractByDenom denom with
  | some contract =>
    simp only [hc] at h
    cases h
    exact .inl ⟨rfl,rfl⟩
  | none =>
    simp only [hc] at h
    rw [ite_error_eq_ok] at h
    obtain ⟨-,h⟩ := h
    obtain ⟨⟨a,w₁⟩,hdeploy,h⟩ := bind_eq_ok.mp h
    unfold deployModuleCRC21 at hdeploy
    rw [ite_error_eq_ok] at hdeploy
    obtain ⟨hfree,hdeploy⟩ := hdeploy
    cases hdeploy
    cases h
    simp only [Bool.or_eq_true,decide_eq_true_eq,not_or,not_le,Option.not_isSome_iff_eq_none] at hfree
    exact .inr ⟨rfl,rfl,hfree.1,hfree.2,rfl⟩

/-- The coins go to the contract or are burned, and the contract hands out tokens. -/
theorem convertCoinFromNativeToCRC21_ok {autoDeploy : Bool}
    (h : w.convertCoinFromNativeToCRC21 env sender coin autoDeploy = .ok w') :
    isValidCoinDenom coin.denom = true ∧ ∃ contract w₁ b,
      w.findContract env coin.denom autoDeploy = .ok (contract,w₁) ∧
      ((isSourceCoin coin.denom = true ∧
          (∃ b₁, Bank.Moved sender env.moduleAccount coin w₁.bank b₁ ∧
            Bank.Burned env.moduleAccount coin b₁ b) ∧
          callModuleCRC21 env contract (.transferFromCronosModule sender coin.amount)
            { w₁ with bank := b } = .ok w') ∨
        isSourceCoin coin.denom = false ∧ Bank.Moved sender contract coin w₁.bank b ∧
          callModuleCRC21 env contract (.mintByCronosModule sender coin.amount)
            { w₁ with bank := b } = .ok w') := by
  unfold convertCoinFromNativeToCRC21 at h
  rw [ite_error_eq_ok] at h
  obtain ⟨hvalid,h⟩ := h
  obtain ⟨⟨contract,w₁⟩,hfind,h⟩ := bind_eq_ok.mp h
  obtain ⟨coins,hcoins,h⟩ := bind_eq_ok.mp h
  cases hsource : isSourceCoin coin.denom with
  | true =>
    rw [hsource,if_pos rfl] at h
    obtain ⟨b₁,hb₁,h⟩ := onBank_bind_ok h
    obtain ⟨b,hb,h⟩ := onBank_bind_ok h
    exact ⟨by simpa using hvalid,contract,w₁,b,hfind,.inl ⟨rfl,
      ⟨b₁,Bank.sendCoins_ok hcoins hb₁,Bank.burnCoins_ok hcoins hb⟩,h⟩⟩
  | false =>
    rw [hsource,if_neg Bool.false_ne_true] at h
    obtain ⟨b,hb,h⟩ := onBank_bind_ok h
    exact ⟨by simpa using hvalid,contract,w₁,b,hfind,.inr ⟨rfl,Bank.sendCoins_ok hcoins hb,h⟩⟩

/-- The contract takes the tokens back, and the coins are minted or come from the contract. -/
theorem convertCoinFromCRC21ToNative_ok
    (h : w.convertCoinFromCRC21ToNative env contract receiver amount = .ok w') :
    ∃ denom, w.store.getDenomByContract contract = some denom ∧
      ((isSourceCoin denom = true ∧ ∃ w₁ b₁ b,
          w.callModuleCRC21 env contract (.transferByCronosModule receiver amount) = .ok w₁ ∧
          Bank.Minted env.moduleAccount ⟨denom,amount⟩ w₁.bank b₁ ∧
          Bank.Moved env.moduleAccount receiver ⟨denom,amount⟩ b₁ b ∧ w' = { w₁ with bank := b }) ∨
        isSourceCoin denom = false ∧ ∃ b, Bank.Moved contract receiver ⟨denom,amount⟩ w.bank b ∧
          callModuleCRC21 env contract (.burnByCronosModule receiver amount) { w with bank := b } =
            .ok w') := by
  unfold convertCoinFromCRC21ToNative at h
  cases hd : w.store.getDenomByContract contract with
  | none =>
    simp only [hd] at h
    cases h
  | some denom =>
    simp only [hd] at h
    replace h := newCoin_bind_ok h
    obtain ⟨coins,hcoins,h⟩ := bind_eq_ok.mp h
    refine ⟨denom,rfl,?_⟩
    cases hsource : isSourceCoin denom with
    | true =>
      rw [hsource,if_pos rfl] at h
      obtain ⟨w₁,h₁,h⟩ := bind_eq_ok.mp h
      obtain ⟨b₁,hb₁,h⟩ := onBank_bind_ok h
      obtain ⟨b,hb,rfl⟩ := onBank_ok h
      exact .inl ⟨rfl,w₁,b₁,b,h₁,Bank.mintCoins_ok hcoins hb₁,
        (Bank.sendCoinsFromModuleToAccount_ok hcoins hb).2,rfl⟩
    | false =>
      rw [hsource,if_neg Bool.false_ne_true] at h
      obtain ⟨b,hb,h⟩ := onBank_bind_ok h
      exact .inr ⟨rfl,b,Bank.sendCoins_ok hcoins hb,h⟩

variable {recipient : Address} {destination : Bytes} {channelId : Option ℕ}

/-- A transfer burns the coin of its sender or puts it into escrow. -/
def Gone (env : Env) (t : Transfer) (b b' : Bank) : Prop :=
  (getSourceChannelID env t.coin.denom = some t.channel ∧
    ∃ b₁, Bank.Moved t.sender env.transferAccount t.coin b b₁ ∧
      Bank.Burned env.transferAccount t.coin b₁ b') ∨
  getSourceChannelID env t.coin.denom ≠ some t.channel ∧
    Bank.Moved t.sender (env.escrowAddress t.channel) t.coin b b'

theorem transfer_ok {t : Transfer} (h : w.transfer env t = .ok w') :
    env.blocked t.sender = false ∧ ∃ b, Gone env t w.bank b ∧
      w' = { w with bank := b, sent := w.sent ++ [t] } := by
  unfold transfer at h
  rw [ite_error_eq_ok] at h
  obtain ⟨hallowed,h⟩ := h
  simp only [Bool.or_eq_true,not_or,Bool.not_eq_true] at hallowed
  refine ⟨hallowed.1,?_⟩
  by_cases hchannel : getSourceChannelID env t.coin.denom = some t.channel
  · rw [if_pos hchannel] at h
    obtain ⟨b₁,hb₁,h⟩ := onBank_bind_ok h
    obtain ⟨b,hb,h⟩ := onBank_bind_ok h
    cases h
    exact ⟨b,.inl ⟨hchannel,b₁,Bank.sendCoins_one hb₁,Bank.burnCoins_one hb⟩,rfl⟩
  · rw [if_neg hchannel] at h
    obtain ⟨b,hb,h⟩ := onBank_bind_ok h
    cases h
    exact ⟨b,.inr ⟨hchannel,Bank.sendCoins_one hb⟩,rfl⟩

theorem ibcSendTransfer_ok (h : w.ibcSendTransfer env sender destination coin channelId = .ok w') :
    ∃ channel, w.transfer env ⟨sender,destination,coin,channel⟩ = .ok w' := by
  unfold ibcSendTransfer at h
  split_ifs at h
  · cases channelId with
    | none => cases h
    | some channel =>
      simp only at h
      split_ifs at h
      exact ⟨channel,h⟩
  · cases hc : getSourceChannelID env coin.denom with
    | none =>
      simp only [hc] at h
      cases h
    | some channel =>
      simp only [hc] at h
      exact ⟨channel,h⟩

/-- One coin of a transfer: what is too small stays, `EvmDenom` is exchanged for the other token
first, and every other coin is sent as it is. -/
theorem ibcTransferCoin_ok (h : ibcTransferCoin env acc destination channelId w c = .ok w') :
    (c.denom = env.evmDenom ∧ c.amount < tenPowTen ∧ w' = w) ∨
    (c.denom = env.evmDenom ∧ tenPowTen ≤ c.amount ∧ env.blocked acc = false ∧ ∃ b₁ b₂ b₃,
      Bank.Moved acc env.moduleAccount ⟨env.evmDenom,c.amount-c.amount % tenPowTen⟩ w.bank b₁ ∧
      Bank.Burned env.moduleAccount ⟨env.evmDenom,c.amount-c.amount % tenPowTen⟩ b₁ b₂ ∧
      Bank.Moved env.moduleAccount acc ⟨w.store.getParams.ibcCroDenom,c.amount / tenPowTen⟩ b₂ b₃ ∧
      ∃ channel, transfer env
        ⟨acc,destination,⟨w.store.getParams.ibcCroDenom,c.amount / tenPowTen⟩,channel⟩
        { w with bank := b₃ } = .ok w') ∨
    c.denom ≠ env.evmDenom ∧ (isValidIBCDenom c.denom = true ∨ isValidCronosDenom c.denom = true) ∧
      ∃ channel, w.transfer env ⟨acc,destination,c,channel⟩ = .ok w' := by
  unfold ibcTransferCoin at h
  by_cases hdenom : c.denom = env.evmDenom
  · rw [if_pos hdenom] at h
    dsimp only at h
    by_cases hsmall : c.amount-c.amount % tenPowTen = 0
    · rw [if_pos hsmall] at h
      cases h
      refine .inl ⟨hdenom,?_,rfl⟩
      have := Nat.mod_lt c.amount (show 0 < tenPowTen by norm_num [tenPowTen])
      have := Nat.mod_le c.amount tenPowTen
      omega
    · rw [if_neg hsmall] at h
      refine .inr (.inl ⟨hdenom,?_,?_⟩)
      · by_contra hlt
        rw [Nat.mod_eq_of_lt (not_le.mp hlt)] at hsmall
        omega
      replace h := newCoin_bind_ok h
      obtain ⟨coins,hcoins,h⟩ := bind_eq_ok.mp h
      obtain ⟨b₁,hb₁,h⟩ := onBank_bind_ok h
      obtain ⟨b₂,hb₂,h⟩ := onBank_bind_ok h
      replace h := newCoin_bind_ok h
      obtain ⟨ibcCoins,hibcCoins,h⟩ := bind_eq_ok.mp h
      obtain ⟨b₃,hb₃,h⟩ := onBank_bind_ok h
      obtain ⟨hblocked,hb₃⟩ := Bank.sendCoinsFromModuleToAccount_ok hibcCoins hb₃
      exact ⟨hblocked,b₁,b₂,b₃,Bank.sendCoins_ok hcoins hb₁,Bank.burnCoins_ok hcoins hb₂,hb₃,
        ibcSendTransfer_ok h⟩
  · rw [if_neg hdenom,ite_error_eq_ok,ite_error_eq_ok] at h
    obtain ⟨hkind,-,h⟩ := h
    refine .inr (.inr ⟨hdenom,?_,ibcSendTransfer_ok h⟩)
    by_contra hnone
    simp_all

theorem ibcTransferCoins_ok {source : Bytes} {coins : List Coin}
    (h : w.ibcTransferCoins env source destination coins channelId = .ok w') :
    ∃ acc, env.accAddressFromBech32 source = some acc ∧
      coins.foldlM (ibcTransferCoin env acc destination channelId) w = .ok w' := by
  unfold ibcTransferCoins at h
  cases hacc : env.accAddressFromBech32 source with
  | none =>
    simp only [hacc] at h
    cases h
  | some acc =>
    simp only [hacc] at h
    rw [ite_error_eq_ok] at h
    exact ⟨acc,rfl,h.2⟩

/-- The other token goes to the module for new `EvmDenom`; every other coin is converted. -/
theorem convertVoucher_ok (h : convertVoucher env acc w c = .ok w') :
    (c.denom = w.store.getParams.ibcCroDenom ∧ env.blocked acc = false ∧ ∃ b₁ b₂ b₃,
      Bank.Moved acc env.moduleAccount c w.bank b₁ ∧
      Bank.Minted env.moduleAccount ⟨env.evmDenom,c.amount*tenPowTen⟩ b₁ b₂ ∧
      Bank.Moved env.moduleAccount acc ⟨env.evmDenom,c.amount*tenPowTen⟩ b₂ b₃ ∧
      w' = { w with bank := b₃ }) ∨
    c.denom ≠ w.store.getParams.ibcCroDenom ∧ ∃ autoDeploy,
      w.convertCoinFromNativeToCRC21 env acc c autoDeploy = .ok w' := by
  unfold convertVoucher at h
  dsimp only at h
  by_cases hdenom : c.denom = w.store.getParams.ibcCroDenom
  · rw [if_pos hdenom,ite_error_eq_ok] at h
    obtain ⟨-,h⟩ := h
    obtain ⟨coins,hcoins,h⟩ := bind_eq_ok.mp h
    obtain ⟨b₁,hb₁,h⟩ := onBank_bind_ok h
    rw [ite_error_eq_ok] at h
    obtain ⟨-,h⟩ := h
    replace h := newCoin_bind_ok h
    obtain ⟨coins',hcoins',h⟩ := bind_eq_ok.mp h
    obtain ⟨b₂,hb₂,h⟩ := onBank_bind_ok h
    obtain ⟨b₃,hb₃,rfl⟩ := onBank_ok h
    obtain ⟨hblocked,hb₃⟩ := Bank.sendCoinsFromModuleToAccount_ok hcoins' hb₃
    exact .inl ⟨hdenom,hblocked,b₁,b₂,b₃,Bank.sendCoins_ok hcoins hb₁,Bank.mintCoins_ok hcoins' hb₂,
      hb₃,rfl⟩
  · rw [if_neg hdenom] at h
    exact .inr ⟨hdenom,_,h⟩

theorem convertVouchersToEvmCoins_ok {source : Bytes} {coins : List Coin}
    (h : w.convertVouchersToEvmCoins env source coins = .ok w') :
    ∃ acc, env.accAddressFromBech32 source = some acc ∧
      coins.foldlM (convertVoucher env acc) w = .ok w' := by
  unfold convertVouchersToEvmCoins at h
  cases hacc : env.accAddressFromBech32 source with
  | none =>
    simp only [hacc] at h
    cases h
  | some acc =>
    simp only [hacc] at h
    exact ⟨acc,rfl,h⟩

theorem onRecvVouchers_ok {tokens : List Coin} {receiver : Bytes}
    (h : w.onRecvVouchers env tokens receiver = .ok w') :
    w.convertVouchersToEvmCoins env receiver tokens = .ok w' ∨ w' = w := by
  unfold onRecvVouchers at h
  split at h
  · rename_i w₁ hw₁
    exact .inl (hw₁.trans h)
  · cases h
  · exact .inr (Except.ok.inj h).symm

/-- The contract of the denomination is set or deleted, perhaps with metadata. -/
theorem registerOrUpdateTokenMapping_ok {msg : MsgUpdateTokenMapping}
    (h : w.registerOrUpdateTokenMapping env msg = .ok w') :
    ∃ metadata s, w' = { w with bank := { w.bank with metadata := metadata }, store := s } ∧
      ((∃ a, w.store.setExternalContractForDenom msg.denom a = .ok s) ∨
        s = w.store.deleteExternalContractForDenom msg.denom) := by
  unfold registerOrUpdateTokenMapping at h
  split_ifs at h
  · obtain ⟨s,hs,h⟩ := bind_eq_ok.mp h
    cases h
    exact ⟨_,s,rfl,.inl ⟨_,hs⟩⟩
  · cases h
    exact ⟨_,_,rfl,.inr rfl⟩
  · obtain ⟨s,hs,h⟩ := bind_eq_ok.mp h
    cases h
    exact ⟨_,s,rfl,.inl ⟨_,hs⟩⟩

theorem updateTokenMapping_ok {msg : MsgUpdateTokenMapping}
    (h : w.updateTokenMapping env msg = .ok w') :
    isValidCoinDenom msg.denom = true ∧ w.registerOrUpdateTokenMapping env msg = .ok w' := by
  unfold updateTokenMapping at h
  split at h
  · cases h
  · split_ifs at h with hvalid
    exact ⟨by simpa using hvalid,h⟩

theorem tokenMappingChange_ok {p : TokenMappingChangeProposal}
    (h : w.tokenMappingChange env p = .ok w') :
    ∃ msg, isValidCoinDenom msg.denom = true ∧ w.registerOrUpdateTokenMapping env msg = .ok w' := by
  unfold tokenMappingChange at h
  rw [ite_error_eq_ok] at h
  exact ⟨_,by simpa using h.1,h.2⟩

theorem updateParams_ok {authority : Bytes} {params : Params}
    (h : w.updateParams env authority params = .ok w') : params.validate env = true ∧
      w' = { w with store := { w.store with params := some params } } := by
  unfold updateParams at h
  rw [ite_error_eq_ok] at h
  obtain ⟨s,hs,h⟩ := bind_eq_ok.mp h.2
  unfold Store.setParams at hs
  rw [ite_ok_error] at hs
  obtain ⟨hvalid,rfl⟩ := hs
  exact ⟨hvalid,(Except.ok.inj h).symm⟩

theorem updatePermissions_ok {source address : Bytes} {permissions : UInt64}
    (h : w.updatePermissions env source address permissions = .ok w') :
    ∃ ps, w' = { w with store := { w.store with permissions := ps } } := by
  unfold updatePermissions at h
  rw [ite_error_eq_ok] at h
  obtain ⟨-,h⟩ := h
  split at h
  · cases h
  · exact ⟨_,(Except.ok.inj h).symm⟩

theorem handleSendToAccount_ok (h : w.handleSendToAccount contract recipient amount = .ok w') :
    ∃ denom b, w.store.getDenomByContract contract = some denom ∧
      Bank.Moved contract recipient ⟨denom,amount⟩ w.bank b ∧ w' = { w with bank := b } := by
  unfold handleSendToAccount at h
  cases hd : w.store.getDenomByContract contract with
  | none =>
    simp only [hd] at h
    cases h
  | some denom =>
    simp only [hd] at h
    replace h := newCoin_bind_ok h
    obtain ⟨coins,hcoins,h⟩ := bind_eq_ok.mp h
    obtain ⟨b,hb,rfl⟩ := onBank_ok h
    exact ⟨denom,b,rfl,Bank.sendCoins_ok hcoins hb,rfl⟩

/-- The coins of a handled log are sent on by the sender of the log. -/
def SentOn (env : Env) (sender : Address) (destination : Bytes) (channelId : Option ℕ) (c : Coin)
    (w w' : World) : Prop :=
  (c.amount = 0 ∧ w' = w) ∨ ibcTransferCoin env sender destination channelId w c = .ok w'

theorem sentOn_of_ok {coins : List Coin} (hc : newCoins c = .ok coins)
    (h : w.ibcTransferCoins env (env.bech32 sender) destination coins channelId = .ok w') :
    SentOn env sender destination channelId c w w' := by
  obtain ⟨acc,hacc,h⟩ := ibcTransferCoins_ok h
  rw [env.accAddressFromBech32_bech32] at hacc
  cases hacc
  rcases newCoins_ok hc with ⟨rfl,h0⟩ | rfl
  · cases h
    exact .inl ⟨h0,rfl⟩
  · rw [List.foldlM_cons,bind_eq_ok] at h
    obtain ⟨w₁,h₁,h⟩ := h
    cases h
    exact .inr h₁

/-- The coins are minted for the sender or come from the contract, and the sender sends them on. -/
theorem handleSendToIbc_ok
    (h : w.handleSendToIbc env contract sender destination amount channelId = .ok w') :
    ∃ denom b, w.store.getDenomByContract contract = some denom ∧
      (isValidIBCDenom denom = true ∨ isValidCronosDenom denom = true) ∧
      ((isSourceCoin denom = true ∧ ∃ b₁, Bank.Minted env.moduleAccount ⟨denom,amount⟩ w.bank b₁ ∧
          Bank.Moved env.moduleAccount sender ⟨denom,amount⟩ b₁ b) ∨
        isSourceCoin denom = false ∧ Bank.Moved contract sender ⟨denom,amount⟩ w.bank b) ∧
      SentOn env sender destination channelId ⟨denom,amount⟩ { w with bank := b } w' := by
  unfold handleSendToIbc at h
  cases hd : w.store.getDenomByContract contract with
  | none =>
    simp only [hd] at h
    cases h
  | some denom =>
    simp only [hd] at h
    rw [ite_error_eq_ok] at h
    obtain ⟨hkind,h⟩ := h
    have hkind : isValidIBCDenom denom = true ∨ isValidCronosDenom denom = true := by
      by_contra hnone
      simp_all
    replace h := newCoin_bind_ok h
    obtain ⟨coins,hcoins,h⟩ := bind_eq_ok.mp h
    cases hsource : isSourceCoin denom with
    | true =>
      rw [hsource,if_pos rfl] at h
      obtain ⟨b₁,hb₁,h⟩ := onBank_bind_ok h
      obtain ⟨b,hb,h⟩ := onBank_bind_ok h
      exact ⟨denom,b,rfl,hkind,.inl ⟨hsource,b₁,Bank.mintCoins_ok hcoins hb₁,
        (Bank.sendCoinsFromModuleToAccount_ok hcoins hb).2⟩,sentOn_of_ok hcoins h⟩
    | false =>
      rw [hsource,if_neg Bool.false_ne_true] at h
      obtain ⟨b,hb,h⟩ := onBank_bind_ok h
      exact ⟨denom,b,rfl,hkind,.inr ⟨hsource,Bank.sendCoins_ok hcoins hb⟩,sentOn_of_ok hcoins h⟩

theorem handleSendCroToIbc_ok
    (h : w.handleSendCroToIbc env contract sender destination amount = .ok w') :
    ∃ b, Bank.Moved contract sender ⟨env.evmDenom,amount⟩ w.bank b ∧
      SentOn env sender destination none ⟨env.evmDenom,amount⟩ { w with bank := b } w' := by
  unfold handleSendCroToIbc at h
  replace h := newCoin_bind_ok h
  obtain ⟨coins,hcoins,h⟩ := bind_eq_ok.mp h
  obtain ⟨b,hb,h⟩ := onBank_bind_ok h
  exact ⟨b,Bank.sendCoins_ok hcoins hb,sentOn_of_ok hcoins h⟩

theorem credit_ok {c : Credit} (h : w.credit env receiver c = .ok w') :
    env.blocked receiver = false ∧ ∃ b, w' = { w with bank := b } ∧
      ((isValidIBCDenom c.coin.denom = true ∧ ∃ b₁,
          Bank.Minted env.transferAccount c.coin w.bank b₁ ∧
          Bank.Moved env.transferAccount receiver c.coin b₁ b) ∨
        ∃ channel, Bank.Moved (env.escrowAddress channel) receiver c.coin w.bank b) := by
  unfold credit at h
  rw [ite_error_eq_ok] at h
  obtain ⟨hblocked,h⟩ := h
  refine ⟨by simpa using hblocked,?_⟩
  cases c with
  | voucher hash amount =>
    simp only at h
    rw [ite_error_eq_ok] at h
    obtain ⟨hlen,h⟩ := h
    obtain ⟨b₁,hb₁,h⟩ := onBank_bind_ok h
    obtain ⟨b,hb,rfl⟩ := onBank_ok h
    refine ⟨b,rfl,.inl ⟨?_,b₁,Bank.mintCoins_one hb₁,Bank.sendCoins_one hb⟩⟩
    have hlen : hash.length = 64 := not_not.mp hlen
    simp [isValidIBCDenom,hasForm,Credit.coin,ibcDenomLen,hlen,ibcDenomPrefix,List.isPrefixOf]
  | escrow channel denom amount =>
    obtain ⟨b,hb,rfl⟩ := onBank_ok h
    exact ⟨b,rfl,.inr ⟨channel,Bank.sendCoins_one hb⟩⟩

theorem receivePacket_ok {c : Credit} (h : w.receivePacket env receiver c = .ok w') :
    ∃ w₁, w.credit env receiver c = .ok w₁ ∧
      (w' = w₁ ∨ convertVoucher env receiver w₁ c.coin = .ok w') := by
  obtain ⟨w₁,h₁,h⟩ := bind_eq_ok.mp h
  refine ⟨w₁,h₁,?_⟩
  split_ifs at h
  · obtain ⟨coins,hcoins,h⟩ := bind_eq_ok.mp h
    rcases onRecvVouchers_ok h with h | rfl
    · obtain ⟨acc,hacc,h⟩ := convertVouchersToEvmCoins_ok h
      rw [env.accAddressFromBech32_bech32] at hacc
      cases hacc
      rcases newCoins_ok hcoins with ⟨rfl,-⟩ | rfl
      · cases h
        exact .inl rfl
      · rw [List.foldlM_cons,bind_eq_ok] at h
        obtain ⟨w₂,h₂,h⟩ := h
        cases h
        exact .inr h₂
    · exact .inl rfl
  · cases h
    exact .inl rfl

end World

end Cronos
