import Memiavl.Cronos.Transaction

/-! A source token that is the external contract of its denomination. There are at most as many coins
as the module holds tokens, if the contract itself takes the tokens into custody that are sent to
other chains. -/
namespace Cronos

open Fallible Option

namespace World

variable {env : Env} {w w' : World} {d : Denom} {n k : ℕ} {acc sender contract : Address}
  {destination : Bytes} {channelId : Option ℕ} {c : Coin} {b b' : Bank}

/-- At most `n` new coins, and nothing but the bank and the transfers has changed. -/
structure Issues (d : Denom) (n : ℕ) (w w' : World) : Prop where
  tokens : w'.tokens = w.tokens
  store : w'.store = w.store
  supply : w'.bank.supply d ≤ w.bank.supply d+n

theorem Issues.refl (d : Denom) (n : ℕ) (w : World) : Issues d n w w := ⟨rfl,rfl,Nat.le_add_right ..⟩

theorem supply_gone {t : Transfer} (h : Gone env t b b') (d : Denom) : b'.supply d ≤ b.supply d := by
  obtain ⟨-,b₁,hmoved,hburned⟩ | ⟨-,hmoved⟩ := h
  · have := hburned.supply d
    rw [hmoved.supply] at this
    omega
  · exact (hmoved.supply d).le

theorem issues_ibcTransferCoin (h : ibcTransferCoin env acc destination channelId w c = .ok w')
    (d : Denom) : Issues d 0 w w' := by
  obtain ⟨-,-,rfl⟩ | ⟨-,-,-,b₁,b₂,b₃,h₁,h₂,h₃,channel,h⟩ | ⟨-,-,channel,h⟩ := ibcTransferCoin_ok h
  · exact .refl ..
  · obtain ⟨-,b,hgone,rfl⟩ := transfer_ok h
    have hg := supply_gone hgone d
    have h₁ := h₁.supply d
    have h₂ := h₂.supply d
    have h₃ := h₃.supply d
    refine ⟨rfl,rfl,?_⟩
    dsimp only at hg ⊢
    omega
  · obtain ⟨-,b,hgone,rfl⟩ := transfer_ok h
    exact ⟨rfl,rfl,supply_gone hgone d⟩

theorem issues_sentOn (h : SentOn env sender destination channelId c w w') (d : Denom) :
    Issues d 0 w w' := by
  obtain ⟨-,rfl⟩ | h := h
  · exact .refl ..
  · exact issues_ibcTransferCoin h d

theorem issues_moved_sentOn (h₁ : Bank.Moved contract sender c w.bank b)
    (h : SentOn env sender destination channelId c { w with bank := b } w') (d : Denom) :
    Issues d 0 w w' := by
  have hsent := issues_sentOn h d
  exact ⟨hsent.tokens,hsent.store,hsent.supply.trans_eq (congrArg (· + 0) (h₁.supply d))⟩

theorem issues_handleSendToIbc {amount : ℕ}
    (h : w.handleSendToIbc env contract sender destination amount channelId = .ok w') (d : Denom) :
    Issues d (if w.store.getDenomByContract contract = some d then amount else 0) w w' := by
  obtain ⟨denom,b,hdenom,-,⟨-,b₁,hminted,hmoved⟩ | ⟨-,hmoved⟩,hsent⟩ := handleSendToIbc_ok h
  · have hsent := issues_sentOn hsent d
    have h₁ := hminted.supply d
    have h₂ := hmoved.supply d
    have h₃ := hsent.supply
    have htotal : Coin.total ⟨denom,amount⟩ d =
        if w.store.getDenomByContract contract = some d then amount else 0 := by
      simp [Coin.total,hdenom,eq_comm]
    refine ⟨hsent.tokens,hsent.store,?_⟩
    dsimp only at h₃
    omega
  · have hsent := issues_moved_sentOn hmoved hsent d
    exact ⟨hsent.tokens,hsent.store,hsent.supply.trans (by omega)⟩

theorem issues_postLog {log : Log} (h : w.postLog env log = .ok w') (d : Denom) :
    Issues d (if w.store.getDenomByContract log.address = some d then log.event.release else 0) w w' := by
  unfold postLog at h
  split_ifs at h
  · obtain ⟨address,event⟩ := log
    cases event with
    | sendToAccount recipient amount =>
      obtain ⟨denom,b,-,hmoved,rfl⟩ := handleSendToAccount_ok h
      exact ⟨rfl,rfl,(hmoved.supply d).le.trans (by omega)⟩
    | sendToIbc sender recipient amount
    | sendToIbcV2 sender channelId recipient amount extraData => exact issues_handleSendToIbc h d
    | sendCroToIbc sender recipient amount =>
      obtain ⟨b,hmoved,hsent⟩ := handleSendCroToIbc_ok h
      have hsent := issues_moved_sentOn hmoved hsent d
      exact ⟨hsent.tokens,hsent.store,hsent.supply.trans (by omega)⟩
    | sendToEvmChain | cancelSendToEvmChain | malformed | other =>
      cases h
      exact .refl ..
  · cases h
    exact .refl ..

/-- The contract is the only one of its denomination, and the module holds tokens for all coins and
for `n` more. -/
structure Covered (env : Env) (d : Denom) (c : Address) (n : ℕ) (w : World) : Prop where
  contract : w.store.getContractByDenom d = some c
  only : ∀ e, w.store.getContractByDenom e = some c → e = d
  denom : ∀ a, w.store.getDenomByContract a = some d ↔ a = c
  token : ∃ t, w.tokens c = some t ∧ t.Locked env.evmModuleAddress ∧
    w.bank.supply d+n ≤ t.balanceOf env.evmModuleAddress

theorem Covered.issues {c : Address} (h : w.Covered env d c (n+k)) (hi : Issues d k w w') :
    w'.Covered env d c n := by
  refine ⟨hi.store ▸ h.contract,hi.store ▸ h.only,hi.store ▸ h.denom,?_⟩
  obtain ⟨t,ht,hlocked,hn⟩ := h.token
  have hsupply := hi.supply
  exact ⟨t,hi.tokens ▸ ht,hlocked,by omega⟩

theorem Covered.ethereumTx {c : Address} {steps : List TxStep} (h : w.Covered env d c 0)
    (htx : w.ethereumTx env steps = .ok w') : w'.Covered env d c 0 := by
  refine ethereumTx_rule (I := fun logs u => u.Covered env d c (owed logs c)) htx h ?_ ?_ ?_ ?_
  · intro logs u sender contract call t t' events hu hsender ht hexec
    refine ⟨hu.contract,hu.only,hu.denom,?_⟩
    obtain ⟨t₁,ht₁,hlocked,hn⟩ := hu.token
    by_cases hc : contract = c
    · subst hc
      obtain rfl : t₁ = t := some.inj (ht₁.symm.trans ht)
      obtain ⟨hlocked',hle⟩ := Token.exec_locked hlocked hsender hexec
      refine ⟨t',by simp [setToken],hlocked',?_⟩
      simp only [owed_append,owed_events,if_true,setToken]
      omega
    · refine ⟨t₁,by simpa [setToken,Ne.symm hc] using ht₁,hlocked,?_⟩
      simpa [owed_events,hc,setToken] using hn
  · intro logs u contract event hu hnone
    obtain ⟨t,ht,hlocked,hn⟩ := hu.token
    have hc : contract ≠ c := by
      rintro rfl
      simp [hnone] at ht
    exact ⟨hu.contract,hu.only,hu.denom,t,ht,hlocked,by simpa [hc] using hn⟩
  · intro logs u contract t hu hnone
    obtain ⟨t₁,ht₁,hlocked,hn⟩ := hu.token
    have hc : c ≠ contract := by
      rintro rfl
      simp [hnone] at ht₁
    exact ⟨hu.contract,hu.only,hu.denom,t₁,by simpa [setToken,hc] using ht₁,hlocked,hn⟩
  · intro log logs u v hu hpost
    have hi := issues_postLog hpost d
    simp only [hu.denom] at hi
    rw [owed_cons,Nat.add_comm] at hu
    exact hu.issues hi

end World

namespace Store

variable {s : Store} {a : Address} {d e : Denom}

theorem getContractByDenom_setAuto (hnone : s.getContractByDenom d = none) (a : Address) (e : Denom) :
    (s.setAutoContractForDenom d a).getContractByDenom e =
      if e = d then some a else s.getContractByDenom e := by
  have hauto := lookup_setAuto s d a e
  have hext : (s.setAutoContractForDenom d a).getExternalContractByDenom e =
    s.getExternalContractByDenom e := rfl
  unfold getContractByDenom
  rw [hauto,hext]
  by_cases he : e = d
  · subst he
    simp [(getContractByDenom_eq_none.mp hnone).1]
  · simp [he]

end Store

namespace World

variable {env : Env} {w w' : World} {d denom : Denom} {n : ℕ} {c acc sender receiver contract : Address}
  {coin : Coin} {amount : ℕ} {call : TokenCall} {t : Token}

theorem outside_locked {tokens tokens' : Address → Option Token} (h : Outside env tokens tokens')
    (ht : tokens c = some t) (hlocked : t.Locked env.evmModuleAddress) : ∃ t', tokens' c = some t' ∧
      t'.Locked env.evmModuleAddress ∧
      t.balanceOf env.evmModuleAddress ≤ t'.balanceOf env.evmModuleAddress := by
  induction h with
  | refl => exact ⟨t,ht,hlocked,le_rfl⟩
  | tail _ hcall ih =>
    obtain ⟨t₁,ht₁,hlocked₁,hle₁⟩ := ih
    obtain ⟨sender,contract,u,u',call,events,hsender,hu,hexec,rfl⟩ := hcall
    by_cases hc : c = contract
    · subst hc
      obtain rfl : t₁ = u := some.inj (ht₁.symm.trans hu)
      obtain ⟨hlocked',hle⟩ := Token.exec_locked hlocked₁ hsender hexec
      exact ⟨u',by simp,hlocked',by omega⟩
    · exact ⟨t₁,by simpa [hc] using ht₁,hlocked₁,hle₁⟩

theorem Covered.call_other (h : w.Covered env d c n) (hc : c ≠ contract)
    (hcall : w.callModuleCRC21 env contract call = .ok w') : w'.Covered env d c n := by
  obtain ⟨t,ht,hlocked,hn⟩ := h.token
  obtain ⟨tokens,rfl,⟨t₁,t',events,-,-,rfl⟩ | ⟨-,hout⟩⟩ := callModuleCRC21_ok hcall
  · exact ⟨h.contract,h.only,h.denom,t,by simpa [hc] using ht,hlocked,hn⟩
  · obtain ⟨t',ht',hlocked',hle⟩ := outside_locked hout ht hlocked
    exact ⟨h.contract,h.only,h.denom,t',ht',hlocked',hn.trans hle⟩

theorem Covered.findContract {autoDeploy : Bool} {r : Address × World} (h : w.Covered env d c n)
    (hvalid : isValidCoinDenom denom = true)
    (hfind : w.findContract env denom autoDeploy = .ok r) :
    r.2.Covered env d c n ∧ (r.1 = c ↔ denom = d) := by
  obtain ⟨hknown,hr⟩ | ⟨hnone,hr₁,hfree,-,hr⟩ := findContract_ok hfind
  · refine ⟨hr ▸ h,fun hc => h.only denom (hc ▸ hknown),?_⟩
    rintro rfl
    exact some.inj (hknown.symm.trans h.contract)
  · obtain ⟨t,ht,hlocked,hn⟩ := h.token
    have hdenom : denom ≠ d := by
      rintro rfl
      simp [h.contract] at hnone
    have hc : c ≠ env.createAddress w.nonce := by
      rintro rfl
      simp [hfree] at ht
    refine ⟨?_,iff_of_false (hr₁ ▸ hc.symm) hdenom⟩
    rw [hr]
    refine ⟨?_,fun e he => ?_,fun a => ?_,t,by simpa [hc] using ht,hlocked,hn⟩
    · rw [Store.getContractByDenom_setAuto hnone,if_neg hdenom.symm]
      exact h.contract
    · rw [Store.getContractByDenom_setAuto hnone] at he
      split_ifs at he
      · exact absurd (some.inj he).symm hc
      · exact h.only e he
    · by_cases ha : a = env.createAddress w.nonce
      · subst ha
        rw [Store.getDenomByContract_setAuto_self _ (ne_nil_of_valid hvalid)]
        exact iff_of_false (by simpa using hdenom) hc.symm
      · rw [Store.getDenomByContract_setAuto_of_ne _ _ ha]
        exact h.denom a

theorem Covered.of_supply {b : Bank} (h : w.Covered env d c n) (hb : b.supply d = w.bank.supply d) :
    { w with bank := b }.Covered env d c n := by
  obtain ⟨t,ht,hlocked,hn⟩ := h.token
  exact ⟨h.contract,h.only,h.denom,t,ht,hlocked,hb ▸ hn⟩

section
variable (hd : isSourceCoin d = true)
include hd

/-- The module gives tokens out only for coins that are burned. -/
theorem Covered.convertCoinFromNativeToCRC21 {autoDeploy : Bool} (h : w.Covered env d c 0)
    (hok : w.convertCoinFromNativeToCRC21 env sender coin autoDeploy = .ok w') :
    w'.Covered env d c 0 := by
  obtain ⟨hvalid,contract,w₁,b,hfind,hrest⟩ := convertCoinFromNativeToCRC21_ok hok
  obtain ⟨h₁,hiff⟩ := h.findContract hvalid hfind
  dsimp only at h₁ hiff
  by_cases hdenom : coin.denom = d
  · obtain rfl : contract = c := hiff.mpr hdenom
    subst hdenom
    obtain ⟨-,⟨b₁,hmoved,hburned⟩,hcall⟩ | ⟨hnot,-⟩ := hrest
    · obtain ⟨t,ht,hlocked,hn⟩ := h₁.token
      obtain ⟨t',events,hexec,ht'⟩ := call_self hcall ht
      obtain ⟨hmove,-⟩ := Token.return_eq_some.mp hexec
      have hgiven := (Token.transferFrom_ok hmove).1
      obtain ⟨hbank,hstore⟩ := call_frame hcall
      refine ⟨hstore ▸ h₁.contract,hstore ▸ h₁.only,hstore ▸ h₁.denom,t',ht',
        hlocked.of_le hgiven.kind hgiven.allowance,?_⟩
      have hbalance := hgiven.balanceOf env.evmModuleAddress
      have hs := hburned.supply coin.denom
      rw [hmoved.supply,Coin.total,if_pos rfl] at hs
      rw [if_pos rfl] at hbalance
      rw [hbank]
      dsimp only
      omega
    · simp [hd] at hnot
  · have hc : c ≠ contract := fun heq => hdenom (hiff.mp heq.symm)
    obtain ⟨-,⟨b₁,hmoved,hburned⟩,hcall⟩ | ⟨-,hmoved,hcall⟩ := hrest
    · have hs := hburned.supply d
      rw [total_of_denom (Ne.symm hdenom),hmoved.supply] at hs
      exact (h₁.of_supply hs).call_other hc hcall
    · exact (h₁.of_supply (hmoved.supply d)).call_other hc hcall

/-- The module takes tokens for the coins it mints, unless they are its own. -/
theorem Covered.convertCoinFromCRC21ToNative (h : w.Covered env d c 0)
    (hreceiver : contract = c → receiver ≠ env.evmModuleAddress)
    (hok : w.convertCoinFromCRC21ToNative env contract receiver amount = .ok w') :
    w'.Covered env d c 0 := by
  obtain ⟨denom,hcontract,hrest⟩ := convertCoinFromCRC21ToNative_ok hok
  by_cases hdenom : denom = d
  · subst hdenom
    obtain rfl : contract = c := (h.denom contract).mp hcontract
    obtain ⟨-,w₁,b₁,b,hcall,hminted,hmoved,rfl⟩ | ⟨hnot,-⟩ := hrest
    · obtain ⟨t,ht,hlocked,hn⟩ := h.token
      obtain ⟨t',events,hexec,ht'⟩ := call_self hcall ht
      simp only [Token.exec,if_true] at hexec
      obtain ⟨hmove,-⟩ := Token.return_eq_some.mp hexec
      have htaken := Token.unsafeTransfer_ok hmove
      obtain ⟨hbank,hstore⟩ := call_frame hcall
      refine ⟨hstore ▸ h.contract,hstore ▸ h.only,hstore ▸ h.denom,t',ht',
        hlocked.of_le htaken.kind htaken.allowance,?_⟩
      have hbalance := htaken.balanceOf env.evmModuleAddress
      have hs := hminted.supply denom
      rw [hbank,Coin.total,if_pos rfl,← hmoved.supply] at hs
      rw [if_neg (hreceiver rfl).symm,if_pos rfl] at hbalance
      dsimp only at hs ⊢
      omega
    · simp [hd] at hnot
  · have hc : c ≠ contract := by
      rintro rfl
      exact hdenom (some.inj (hcontract.symm.trans ((h.denom c).mpr rfl)))
    obtain ⟨-,w₁,b₁,b,hcall,hminted,hmoved,rfl⟩ | ⟨-,b,hmoved,hcall⟩ := hrest
    · refine (h.call_other hc hcall).of_supply ?_
      rw [hmoved.supply,hminted.supply,total_of_denom (Ne.symm hdenom),Nat.add_zero]
    · exact (h.of_supply (hmoved.supply d)).call_other hc hcall

theorem Covered.convertVoucher (hevm : d ≠ env.evmDenom) (h : w.Covered env d c 0)
    (hok : convertVoucher env acc w coin = .ok w') : w'.Covered env d c 0 := by
  obtain ⟨-,-,b₁,b₂,b₃,h₁,h₂,h₃,rfl⟩ | ⟨-,autoDeploy,hok⟩ := convertVoucher_ok hok
  · refine h.of_supply ?_
    rw [h₃.supply,h₂.supply,h₁.supply,total_of_denom (c := ⟨_,_⟩) hevm,Nat.add_zero]
  · exact h.convertCoinFromNativeToCRC21 hd hok

theorem Covered.receivePacket {p : Credit} (hevm : d ≠ env.evmDenom) (h : w.Covered env d c 0)
    (hok : w.receivePacket env receiver p = .ok w') : w'.Covered env d c 0 := by
  obtain ⟨w₁,hcredit,hrest⟩ := receivePacket_ok hok
  have h₁ : w₁.Covered env d c 0 := by
    obtain ⟨-,b,rfl,⟨hibc,b₁,hminted,hmoved⟩ | ⟨channel,hmoved⟩⟩ := credit_ok hcredit
    · have hdenom : d ≠ p.coin.denom := by
        rintro rfl
        simp [not_source_of_ibc hibc] at hd
      refine h.of_supply ?_
      rw [hmoved.supply,hminted.supply,total_of_denom hdenom,Nat.add_zero]
    · exact h.of_supply (hmoved.supply d)
  obtain rfl | hok := hrest
  · exact h₁
  · exact h₁.convertVoucher hd hevm hok

end

variable {op : Op}

/-- The mapping is not changed, and coins are not minted for tokens that the module has already. -/
def KeepsCustody (env : Env) (c : Address) : Op → Prop
  | .updateTokenMapping _ | .tokenMappingChange _ => False
  | .convertCoinFromCRC21ToNative contract receiver _ => contract = c → receiver ≠ env.evmModuleAddress
  | _ => True

theorem Covered.of_mapping {s : Store} (h : w.Covered env d c 0) (hext : s.external = w.store.external)
    (hauto : s.auto = w.store.auto) (hdenoms : s.denoms = w.store.denoms) :
    { w with store := s }.Covered env d c 0 := by
  refine ⟨?_,fun e => ?_,fun a => ?_,h.token⟩
  · simpa only [Store.getContractByDenom,Store.getExternalContractByDenom,Store.getAutoContractByDenom,
      hext,hauto] using h.contract
  · simpa only [Store.getContractByDenom,Store.getExternalContractByDenom,Store.getAutoContractByDenom,
      hext,hauto] using h.only e
  · simpa only [Store.getDenomByContract,hdenoms] using h.denom a

theorem Covered.step (hd : isSourceCoin d = true) (hevm : d ≠ env.evmDenom)
    (h : w.Covered env d c 0) (hop : KeepsCustody env c op) (hstep : w.step env op = some w') :
    w'.Covered env d c 0 := by
  have happly := step_eq_some.mp hstep
  have hvouchers : ∀ {source coins}, w.convertVouchersToEvmCoins env source coins = .ok w' →
      w'.Covered env d c 0 := by
    intro source coins hok
    obtain ⟨acc,-,hok⟩ := convertVouchersToEvmCoins_ok hok
    exact foldlM_invariant (I := fun u => u.Covered env d c 0) hok h fun _ _ _ hu hv =>
      hu.convertVoucher hd hevm hv
  cases op with
  | updateTokenMapping msg => exact hop.elim
  | tokenMappingChange p => exact hop.elim
  | updateParams authority params =>
    obtain ⟨-,rfl⟩ := updateParams_ok happly
    exact h.of_mapping rfl rfl rfl
  | updatePermissions source address permissions =>
    obtain ⟨ps,rfl⟩ := updatePermissions_ok happly
    exact h.of_mapping rfl rfl rfl
  | convertVouchersToEvmCoins source coins => exact hvouchers happly
  | onRecvVouchers tokens receiver =>
    rcases onRecvVouchers_ok happly with hok | rfl
    · exact hvouchers hok
    · exact h
  | ibcTransferCoins source destination coins channelId =>
    obtain ⟨acc,-,hok⟩ := ibcTransferCoins_ok happly
    exact foldlM_invariant (I := fun u => u.Covered env d c 0) hok h fun _ _ _ hu hv =>
      Covered.issues (n := 0) hu (issues_ibcTransferCoin hv d)
  | convertCoinFromNativeToCRC21 sender coin autoDeploy =>
    exact h.convertCoinFromNativeToCRC21 hd happly
  | convertCoinFromCRC21ToNative contract receiver amount =>
    exact h.convertCoinFromCRC21ToNative hd hop happly
  | ethereumTx steps => exact h.ethereumTx happly
  | receivePacket receiver p => exact h.receivePacket hd hevm happly

theorem covered_of_registered {t : Token} (hinv : w.store.Inv)
    (hext : w.store.getExternalContractByDenom d = some c)
    (hauto : w.store.getAutoContractByDenom d = none) (ht : w.tokens c = some t)
    (hlocked : t.Locked env.evmModuleAddress) (hsupply : w.bank.supply d = 0) :
    w.Covered env d c 0 := by
  have hcontract : w.store.getContractByDenom d = some c := by
    simp [Store.getContractByDenom,hext]
  have hdenom : w.store.getDenomByContract c = some d := hinv.consistent.getDenomByContract hcontract
  refine ⟨hcontract,fun e he => ?_,fun a => ?_,t,ht,hlocked,by simp [hsupply]⟩
  · exact some.inj ((hinv.consistent.getDenomByContract he).symm.trans hdenom)
  · rw [hinv.consistent a d,hext,hauto]
    simp [eq_comm]

/-- After a source token is registered for a denomination without coins, the module holds tokens for
all coins, as long as the mapping stays and the module does not convert its own tokens. -/
theorem supply_le_custody {w₀ : World} {t : Token} (hd : isSourceCoin d = true)
    (hevm : d ≠ env.evmDenom) (hinv : w₀.store.Inv)
    (hext : w₀.store.getExternalContractByDenom d = some c)
    (hauto : w₀.store.getAutoContractByDenom d = none) (ht : w₀.tokens c = some t)
    (hsource : t.isSource = true) (hallowance : ∀ a, t.allowance env.evmModuleAddress a = 0)
    (hsupply : w₀.bank.supply d = 0)
    (hrun : Transition.Run (World.step env) (fun _ op => KeepsCustody env c op) w₀ w) :
    ∃ t', w.tokens c = some t' ∧ w.bank.supply d ≤ t'.balanceOf env.evmModuleAddress := by
  have hcovered : w.Covered env d c 0 := hrun.invariant (I := fun w => w.Covered env d c 0)
    (covered_of_registered hinv hext hauto ht ⟨hsource,hallowance⟩ hsupply)
    fun w op w' hw hop h => hw.step hd hevm hop h
  obtain ⟨t',ht',-,hn⟩ := hcovered.token
  exact ⟨t',ht',hn⟩

end World

namespace Sample

def emptyWorld : World := { world with bank := { balance := fun _ _ => 0, supply := fun _ => 0 } }

/-- The account 9 deploys a token at the address 7 and mints 10 of it. -/
def deployToken (isSource : Bool) : Op :=
  .ethereumTx [.create (address 9) (address 7) (cronosDenom 55) 0 isSource,
    .call (address 9) (address 7) (.mint (address 9) 10)]

def registerToken : Op :=
  .tokenMappingChange ⟨cronosDenom 55,(address 7).hex env.checksum,[],0⟩

def sendToken : Op := .ethereumTx [.call (address 9) (address 7) (.sendToIbc [99] 5 0 [])]

def custodyToken : Token :=
  { Token.create (cronosDenom 55) 0 true (address 9) with
    totalSupply := 10
    balanceOf := fun a => if a = address 9 then 10 else 0 }

def custodyWorld : World :=
  { emptyWorld with
    tokens := Function.update (fun _ => none) (address 7) (some custodyToken)
    store := { world.store with
      external := world.store.external.insert (cronosDenom 55) (address 7)
      denoms := world.store.denoms.insert (address 7) (cronosDenom 55) } }

theorem inv_custodyWorld : custodyWorld.store.Inv :=
  (Store.inv_empty ..).setExternal (s := world.store) (d := cronosDenom 55) (a := address 7) (by decide)
    (by rfl)

end Sample

namespace World

open Sample in
theorem supply_le_custody_sent : ∃ w, custodyWorld.step env sendToken = some w ∧
    w.bank.supply (cronosDenom 55) = 5 ∧ ∃ t', w.tokens (address 7) = some t' ∧
      w.bank.supply (cronosDenom 55) ≤ t'.balanceOf env.evmModuleAddress := by
  have hstep : (custodyWorld.step env sendToken).any
      (fun w => w.bank.supply (cronosDenom 55) = 5) = true := by
    decide +kernel
  obtain ⟨w,hw,hsupply⟩ := (Option.any_eq_true ..).mp hstep
  have ht : custodyWorld.tokens (address 7) = some custodyToken := by simp [custodyWorld]
  refine ⟨w,hw,of_decide_eq_true hsupply,?_⟩
  exact supply_le_custody (d := cronosDenom 55) (by decide) (by decide) inv_custodyWorld
    (by decide +kernel) (by decide +kernel) ht rfl (fun _ => rfl) rfl (.single ⟨sendToken,trivial,hw⟩)

open Sample in
/-- A contract that burns the tokens it sends, while the module mints coins for them. -/
theorem custody_missing : ∃ w₁ w₂ w t,
    emptyWorld.step env (deployToken false) = some w₁ ∧ w₁.step env registerToken = some w₂ ∧
    w₂.store.getExternalContractByDenom (cronosDenom 55) = some (address 7) ∧
    w₂.bank.supply (cronosDenom 55) = 0 ∧ w₂.step env sendToken = some w ∧
    w.tokens (address 7) = some t ∧ t.balanceOf env.evmModuleAddress = 0 ∧
    w.bank.supply (cronosDenom 55) = 5 := by
  have hrun : ((emptyWorld.step env (deployToken false)).bind fun w₁ =>
      (w₁.step env registerToken).bind fun w₂ => (w₂.step env sendToken).map fun w => (w₂,w)).any
      (fun p => p.1.store.getExternalContractByDenom (cronosDenom 55) = some (address 7) ∧
        p.1.bank.supply (cronosDenom 55) = 0 ∧
        (p.2.tokens (address 7)).any (fun t => t.balanceOf env.evmModuleAddress = 0) = true ∧
        p.2.bank.supply (cronosDenom 55) = 5) = true := by
    decide +kernel
  obtain ⟨p,hp,h⟩ := (Option.any_eq_true ..).mp hrun
  obtain ⟨w₁,hw₁,hp⟩ := bind_eq_some_iff.mp hp
  obtain ⟨w₂,hw₂,hp⟩ := bind_eq_some_iff.mp hp
  obtain ⟨w,hw,rfl⟩ := map_eq_some_iff.mp hp
  obtain ⟨hext,hzero,hany,hsupply⟩ := of_decide_eq_true h
  obtain ⟨t,ht,hbalance⟩ := (Option.any_eq_true ..).mp hany
  exact ⟨w₁,w₂,w,t,hw₁,hw₂,hext,hzero,hw,ht,of_decide_eq_true hbalance,hsupply⟩

end World

end Cronos
