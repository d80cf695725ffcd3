import Memiavl.Cronos.Backing

/-! The tokens that a call gives up, and the coins that the hooks release for them. Only the logs of
`send_to_ibc` have a handler. -/
namespace Cronos

open Fallible Option

/-- The tokens that a call sends to another chain, with the fee of the bridge. -/
def TokenCall.sent : TokenCall → Option ℕ
  | .sendToIbc _ amount _ _ => some amount
  | .sendToEvmChain _ amount _ bridgeFee _ => some (amount+bridgeFee)
  | _ => none

def TokenCall.isSendToIbc : TokenCall → Bool
  | .sendToIbc .. => true
  | _ => false

def TokenCall.event (sender : Address) : TokenCall → Event
  | .sendToIbc recipient amount channelId extraData =>
    .sendToIbcV2 sender channelId recipient amount extraData
  | .sendToEvmChain recipient amount chainId bridgeFee extraData =>
    .sendToEvmChain sender recipient chainId amount bridgeFee extraData
  | _ => .other

theorem Token.exec_sent {moduleAddress sender : Address} {t t' : Token} {call : TokenCall}
    {events : List Event} {n : ℕ} (hsource : t.isSource = false) (hsent : call.sent = some n)
    (h : t.exec moduleAddress sender call = some (t',events)) :
    t.unsafeBurn sender n = some t' ∧ events = [.other,call.event sender] := by
  cases call with
  | sendToIbc recipient amount channelId extraData =>
    cases hsent
    obtain ⟨hcall,rfl⟩ := return_eq_some.mp h
    rw [giveUp,hsource,if_neg Bool.false_ne_true] at hcall
    exact ⟨hcall,rfl⟩
  | sendToEvmChain recipient amount chainId bridgeFee extraData =>
    cases hsent
    obtain ⟨total,htotal,hrest⟩ := bind_eq_some_iff.mp h
    obtain ⟨-,rfl⟩ := dsAdd_eq_some.mp htotal
    obtain ⟨hcall,rfl⟩ := return_eq_some.mp hrest
    rw [giveUp,hsource,if_neg Bool.false_ne_true] at hcall
    exact ⟨hcall,rfl⟩
  | _ => cases hsent

namespace World

variable {env : Env} {w w' : World} {c user sender : Address} {d : Denom} {n : ℕ} {coin : Coin}
  {destination : Bytes} {channelId : Option ℕ}

/-- The coin leaves the account of the contract for the user, who may send it on. -/
structure Released (env : Env) (c user : Address) (coin : Coin) (w w' : World) : Prop where
  left : w'.bank.balance c coin.denom+coin.amount = w.bank.balance c coin.denom
  reached : ∃ b destination channelId, Bank.Moved c user coin w.bank b ∧
    SentOn env user destination channelId coin { w with bank := b } w'

theorem balance_sentOn (hc : Plain env c) (hne : c ≠ sender)
    (h : SentOn env sender destination channelId coin w w') (d : Denom) :
    w'.bank.balance c d = w.bank.balance c d := by
  obtain ⟨-,rfl⟩ | h := h
  · rfl
  obtain ⟨-,-,rfl⟩ | ⟨-,-,-,b₁,b₂,b₃,h₁,h₂,h₃,channel,h⟩ | ⟨-,-,channel,h⟩ := ibcTransferCoin_ok h
  · rfl
  · obtain ⟨-,b,hgone,rfl⟩ := transfer_ok h
    have hg := balance_gone hgone hc d
    have h₁ := h₁.balance c d
    have h₂ := h₂.balance c d
    have h₃ := h₃.balance c d
    rw [share_of_account hne] at hg h₁ h₃
    rw [share_of_account hc.moduleAccount] at h₁ h₂ h₃
    dsimp only at hg ⊢
    omega
  · obtain ⟨-,b,hgone,rfl⟩ := transfer_ok h
    have hg := balance_gone hgone hc d
    rw [share_of_account hne] at hg
    exact hg

theorem released_of_moved {b : Bank} (hc : Plain env c) (hne : c ≠ user)
    (hmoved : Bank.Moved c user coin w.bank b)
    (hsent : SentOn env user destination channelId coin { w with bank := b } w') :
    Released env c user coin w w' := by
  refine ⟨?_,b,destination,channelId,hmoved,hsent⟩
  have hm := hmoved.balance c coin.denom
  rw [share_of_account hne,Coin.share,if_pos ⟨rfl,rfl⟩] at hm
  rw [balance_sentOn hc hne hsent]
  exact hm

/-- The hooks release the coins of a call exactly if it is `send_to_ibc`, or if there are none. -/
theorem released_postLog_iff {call : TokenCall} (hc : Plain env c) (hne : c ≠ user)
    (hdenom : w.store.getDenomByContract c = some d) (hibc : isValidIBCDenom d = true)
    (hsent : call.sent = some n) (h : w.postLog env ⟨c,call.event user⟩ = .ok w') :
    Released env c user ⟨d,n⟩ w w' ↔ call.isSendToIbc = true ∨ n = 0 := by
  cases call with
  | sendToIbc recipient amount channelId extraData =>
    obtain rfl : amount = n := some.inj hsent
    refine iff_of_true ?_ (.inl rfl)
    obtain ⟨denom,b,hd,-,hmoved,hsent⟩ := handleSendToIbc_ok
      (show w.handleSendToIbc env c user recipient amount (some channelId) = .ok w' from h)
    obtain rfl : d = denom := some.inj (hdenom.symm.trans hd)
    obtain ⟨hsource,-⟩ | ⟨-,hmoved⟩ := hmoved
    · simp [not_source_of_ibc hibc] at hsource
    · exact released_of_moved hc hne hmoved hsent
  | sendToEvmChain recipient amount chainId bridgeFee extraData =>
    cases hsent
    -- No handler is registered for the log.
    obtain rfl : w = w' := Except.ok.inj h
    refine ⟨fun hreleased => .inr ?_,fun hzero => ?_⟩
    · have := hreleased.left
      dsimp only at this
      omega
    · have hzero : amount+bridgeFee = 0 := by simpa [TokenCall.isSendToIbc] using hzero
      have hmoved : Bank.Moved c user ⟨d,amount+bridgeFee⟩ w.bank w.bank :=
        ⟨fun a e => by rw [share_zero hzero,share_zero hzero],fun _ => rfl⟩
      have hsent : SentOn env user [] none ⟨d,amount+bridgeFee⟩ w w := .inl ⟨hzero,rfl⟩
      exact released_of_moved hc hne hmoved hsent
  | _ => cases hsent

/-- The log is handled in the transaction, from the state `x` to the state `y`. -/
structure Hooked (env : Env) (w : World) (steps : List TxStep) (log : Log) (x y w' : World) : Prop where
  pass : ∃ u before after, steps.foldlM (txStep env) (w,[]) = .ok (u,before ++ log :: after) ∧
    u.postTxProcessing env before = .ok x ∧ y.postTxProcessing env after = .ok w'
  post : x.postLog env log = .ok y

variable {steps : List TxStep} {p q : World × List Log}

section
variable (h : steps.foldlM (txStep env) p = .ok q)
include h

/-- The steps of a transaction only add logs. -/
theorem logs_append : ∃ logs, q.2 = p.2 ++ logs := by
  refine foldlM_invariant (I := fun q => ∃ logs, q.2 = p.2 ++ logs) h ⟨[],by simp⟩ ?_
  rintro s q r ⟨logs,hlogs⟩ hstep
  obtain ⟨-,contract,-,-,-,events,-,-,-,-,rfl⟩ | ⟨contract,event,-,rfl⟩ | ⟨contract,t,-,rfl⟩ :=
    txStep_ok hstep
  · exact ⟨logs ++ events.map fun event => ⟨contract,event⟩,by simp [hlogs]⟩
  · exact ⟨logs ++ [⟨contract,event⟩],by simp [hlogs]⟩
  · exact ⟨logs,hlogs⟩

theorem kept_txSteps : Kept p.1 q.1 :=
  foldlM_invariant (I := fun q : World × List Log => Kept p.1 q.1) h ⟨rfl,rfl⟩
    fun _ _ _ hp hq => hp.trans (kept_txStep hq)

/-- A contract that the module deployed remains one through the steps of a transaction. -/
theorem deployed_txSteps {t : Token} (ht : p.1.tokens c = some t)
    (howner : t.owner = env.evmModuleAddress) (hsource : t.isSource = false) :
    ∃ t', q.1.tokens c = some t' ∧ t'.owner = env.evmModuleAddress ∧ t'.isSource = false := by
  refine foldlM_invariant (I := fun q : World × List Log => ∃ t', q.1.tokens c = some t' ∧
    t'.owner = env.evmModuleAddress ∧ t'.isSource = false) h ⟨t,ht,howner,hsource⟩ ?_
  rintro s p q ⟨t₁,ht₁,howner₁,hsource₁⟩ hstep
  obtain ⟨sender,contract,call,u,u',events,-,hsender,hu,hexec,rfl⟩ | ⟨-,-,-,rfl⟩ | ⟨contract,u,hnone,rfl⟩ :=
    txStep_ok hstep
  · by_cases hc : c = contract
    · subst hc
      obtain rfl : t₁ = u := some.inj (ht₁.symm.trans hu)
      obtain ⟨hkind,-⟩ := Token.exec_supply (howner₁ ▸ hsender) hsender hsource₁ hexec
      exact ⟨u',by simp [setToken],hkind.owner.trans howner₁,hkind.isSource.trans hsource₁⟩
    · exact ⟨t₁,by simpa [setToken,hc] using ht₁,howner₁,hsource₁⟩
  · exact ⟨t₁,ht₁,howner₁,hsource₁⟩
  · have hc : c ≠ contract := by
      rintro rfl
      simp [hnone] at ht₁
    exact ⟨t₁,by simpa [setToken,hc] using ht₁,howner₁,hsource₁⟩

end

/-- In a transaction a call of `send_to_ibc` or `send_to_evm_chain` burns tokens of the user, and the
hook of its log releases as many coins of the contract exactly if it is `send_to_ibc`, or if the
amount is zero. -/
theorem burned_released_iff {before after : List TxStep} {call : TokenCall} {t : Token}
    (hc : Plain env c) (hne : c ≠ user) (hdenom : w.store.getDenomByContract c = some d)
    (hibc : isValidIBCDenom d = true) (ht : w.tokens c = some t)
    (howner : t.owner = env.evmModuleAddress) (hsource : t.isSource = false)
    (hsent : call.sent = some n)
    (h : w.ethereumTx env (before ++ .call user c call :: after) = .ok w') :
    ∃ u logs t₁ t₂ x y, before.foldlM (txStep env) (w,[]) = .ok (u,logs) ∧ u.tokens c = some t₁ ∧
      t₁.exec env.evmModuleAddress user call = some (t₂,[.other,call.event user]) ∧
      t₂.balanceOf user+n = t₁.balanceOf user ∧ t₂.totalSupply+n = t₁.totalSupply ∧
      Hooked env w (before ++ .call user c call :: after) ⟨c,call.event user⟩ x y w' ∧
      (Released env c user ⟨d,n⟩ x y ↔ call.isSendToIbc = true ∨ n = 0) := by
  obtain ⟨⟨v,all⟩,hsteps,hhooks⟩ := bind_eq_ok.mp h
  obtain ⟨⟨u,logs⟩,⟨u₁,logs₁⟩,hbefore,hcall,hafter⟩ := foldlM_append_cons hsteps
  obtain ⟨t₁,ht₁,-,hsource₁⟩ := deployed_txSteps hbefore ht howner hsource
  obtain ⟨t',t₂,events,-,hu,hexec,hp⟩ := txStep_call_ok hcall
  obtain rfl : t₁ = t' := some.inj (ht₁.symm.trans hu)
  obtain ⟨hburn,rfl⟩ := Token.exec_sent hsource₁ hsent hexec
  have hburned := Token.unsafeBurn_ok hburn
  obtain ⟨logs₂,hlogs⟩ := logs_append hafter
  obtain ⟨rfl,rfl⟩ := Prod.mk.inj hp
  have hall : all = (logs ++ [⟨c,.other⟩]) ++ ⟨c,call.event user⟩ :: logs₂ := by simpa using hlogs
  subst hall
  obtain ⟨x,y,hx,hy,hw'⟩ := foldlM_append_cons hhooks
  have hstore : x.store = w.store :=
    (((kept_txSteps hsteps).trans (kept_postTxProcessing hx)).1 :)
  have hbalance := hburned.balanceOf user
  rw [if_pos rfl] at hbalance
  exact ⟨u,logs,t₁,t₂,x,y,hbefore,ht₁,hexec,hbalance,hburned.totalSupply,
    ⟨⟨v,_,_,hsteps,hx,hw'⟩,hy⟩,released_postLog_iff hc hne (hstore ▸ hdenom) hibc hsent hy⟩

end World

namespace Sample

/-- The account 9 converts 5 coins, for which the module deploys the first contract. -/
def convertFive : Op := .convertCoinFromNativeToCRC21 (address 9) ⟨ibcDenom 66,5⟩ true

end Sample

namespace World

open Sample in
theorem burned_released_sent : ∃ w w', world.step env convertFive = some w ∧
    w.ethereumTx env [.call (address 9) (created 0) (.sendToIbc [99] 3 0 [])] = .ok w' ∧
    ∃ x y, Hooked env w [.call (address 9) (created 0) (.sendToIbc [99] 3 0 [])]
      ⟨created 0,.sendToIbcV2 (address 9) 0 [99] 3 []⟩ x y w' ∧
      Released env (created 0) (address 9) ⟨ibcDenom 66,3⟩ x y := by
  have hrun : ((world.step env convertFive).bind fun w =>
      (w.step env (.ethereumTx [.call (address 9) (created 0) (.sendToIbc [99] 3 0 [])])).map
        fun _ => w).any (fun w => w.store.getDenomByContract (created 0) = some (ibcDenom 66) ∧
        (w.tokens (created 0)).any (fun t => t.owner = env.evmModuleAddress ∧ t.isSource = false) =
          true) = true := by
    decide +kernel
  obtain ⟨w,hw,h⟩ := (Option.any_eq_true ..).mp hrun
  obtain ⟨w₁,hw₁,hw⟩ := bind_eq_some_iff.mp hw
  obtain ⟨w',hw',rfl⟩ := map_eq_some_iff.mp hw
  obtain ⟨hdenom,hany⟩ := of_decide_eq_true h
  obtain ⟨t,ht,htoken⟩ := (Option.any_eq_true ..).mp hany
  obtain ⟨howner,hsource⟩ := of_decide_eq_true htoken
  have htx : w₁.ethereumTx env ([] ++ .call (address 9) (created 0) (.sendToIbc [99] 3 0 []) :: []) =
      .ok w' := step_eq_some.mp hw'
  obtain ⟨-,-,-,-,x,y,-,-,-,-,-,hhooked,hiff⟩ := burned_released_iff (plain_created 0)
    (address_ne_created (by decide) 0).symm hdenom (by decide) ht howner hsource rfl htx
  exact ⟨w₁,w',hw₁,htx,x,y,hhooked,hiff.mpr (.inl rfl)⟩

open Sample in
/-- The tokens of `send_to_evm_chain` are gone, and no coin has moved. -/
theorem burned_stranded : ∃ w w' t t', world.step env convertFive = some w ∧
    w.step env (.ethereumTx [.call (address 9) (created 0) (.sendToEvmChain (address 8) 2 1 1 [])]) =
      some w' ∧
    w.store.getAutoContractByDenom (ibcDenom 66) = some (created 0) ∧
    w.tokens (created 0) = some t ∧ w'.tokens (created 0) = some t' ∧
    t.balanceOf (address 9) = 5 ∧ t'.balanceOf (address 9) = 2 ∧ t'.totalSupply = 2 ∧
    w'.bank.balance (created 0) (ibcDenom 66) = 5 ∧
    w'.bank.balance (address 9) (ibcDenom 66) = w.bank.balance (address 9) (ibcDenom 66) ∧
    w'.sent = [] := by
  have hrun : ((world.step env convertFive).bind fun w =>
      (w.step env (.ethereumTx [.call (address 9) (created 0)
        (.sendToEvmChain (address 8) 2 1 1 [])])).map fun w' => (w,w')).any
      (fun p => p.1.store.getAutoContractByDenom (ibcDenom 66) = some (created 0) ∧
        (p.1.tokens (created 0)).any (fun t => t.balanceOf (address 9) = 5) = true ∧
        (p.2.tokens (created 0)).any (fun t => t.balanceOf (address 9) = 2 ∧ t.totalSupply = 2) =
          true ∧
        p.2.bank.balance (created 0) (ibcDenom 66) = 5 ∧
        p.2.bank.balance (address 9) (ibcDenom 66) = p.1.bank.balance (address 9) (ibcDenom 66) ∧
        p.2.sent = []) = true := by
    decide +kernel
  obtain ⟨p,hp,h⟩ := (Option.any_eq_true ..).mp hrun
  obtain ⟨w,hw,hp⟩ := bind_eq_some_iff.mp hp
  obtain ⟨w',hw',rfl⟩ := map_eq_some_iff.mp hp
  obtain ⟨hauto,hany,hany',hrest⟩ := of_decide_eq_true h
  obtain ⟨t,ht,hbalance⟩ := (Option.any_eq_true ..).mp hany
  obtain ⟨t',ht',hbalance'⟩ := (Option.any_eq_true ..).mp hany'
  obtain ⟨hleft,hsupply⟩ := of_decide_eq_true hbalance'
  exact ⟨w,w',t,t',hw,hw',hauto,ht,ht',of_decide_eq_true hbalance,hleft,hsupply,hrest⟩

end World

end Cronos
