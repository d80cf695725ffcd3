import Memiavl.Cronos.Transaction

/-! A contract that the module deployed for a voucher holds at least as many coins as there are
tokens of it. -/
namespace Cronos

open Fallible Option

/-- An account of no module and of no channel. -/
structure Plain (env : Env) (a : Address) : Prop where
  moduleAccount : a ≠ env.moduleAccount
  transferAccount : a ≠ env.transferAccount
  escrowAddress : ∀ channel, a ≠ env.escrowAddress channel

theorem share_le (c : Coin) (x a : Address) (d : Denom) : c.share x a d ≤ if x = a then c.amount else 0 := by
  unfold Coin.share
  split_ifs <;> simp_all

namespace World

variable {env : Env} {w w' : World} {l l' : Address → Denom → ℕ} {acc sender : Address}
  {destination : Bytes} {channelId : Option ℕ} {c : Coin} {b b' : Bank}

/-- Plain accounts lose at most `l`, and nothing but the bank and the transfers has changed. -/
structure Paid (env : Env) (l : Address → Denom → ℕ) (w w' : World) : Prop where
  tokens : w'.tokens = w.tokens
  store : w'.store = w.store
  balance : ∀ a, Plain env a → ∀ d, w.bank.balance a d ≤ w'.bank.balance a d+l a d

theorem Paid.refl (l : Address → Denom → ℕ) (w : World) : Paid env l w w :=
  ⟨rfl,rfl,fun _ _ _ => Nat.le_add_right ..⟩

theorem Paid.mono (h : Paid env l w w') (hle : ∀ a d, l a d ≤ l' a d) : Paid env l' w w' :=
  ⟨h.tokens,h.store,fun a ha d => (h.balance a ha d).trans (Nat.add_le_add_left (hle a d) _)⟩

theorem balance_gone {t : Transfer} (h : Gone env t b b') {a : Address} (ha : Plain env a) (d : Denom) :
    b'.balance a d+t.coin.share t.sender a d = b.balance a d := by
  obtain ⟨-,b₁,hmoved,hburned⟩ | ⟨-,hmoved⟩ := h
  · have h₁ := hmoved.balance a d
    have h₂ := hburned.balance a d
    rw [share_of_account ha.transferAccount] at h₁ h₂
    omega
  · have h₁ := hmoved.balance a d
    rw [share_of_account (ha.escrowAddress _)] at h₁
    omega

theorem paid_ibcTransferCoin (h : ibcTransferCoin env acc destination channelId w c = .ok w') :
    Paid env (c.share acc) w w' := by
  obtain ⟨-,-,rfl⟩ | ⟨hdenom,-,-,b₁,b₂,b₃,h₁,h₂,h₃,channel,h⟩ | ⟨-,-,channel,h⟩ := ibcTransferCoin_ok h
  · exact .refl ..
  · obtain ⟨-,b,hgone,rfl⟩ := transfer_ok h
    refine ⟨rfl,rfl,fun a ha d => ?_⟩
    -- The other token comes to the account and leaves it again.
    have hg := balance_gone hgone ha d
    have h₁ := h₁.balance a d
    have h₂ := h₂.balance a d
    have h₃ := h₃.balance a d
    rw [share_of_account ha.moduleAccount] at h₁ h₂ h₃
    have hle : Coin.share ⟨env.evmDenom,c.amount-c.amount % tenPowTen⟩ acc a d ≤ c.share acc a d := by
      simp only [Coin.share,hdenom]
      split_ifs <;> omega
    dsimp only at hg ⊢
    omega
  · obtain ⟨-,b,hgone,rfl⟩ := transfer_ok h
    exact ⟨rfl,rfl,fun a ha d => (balance_gone hgone ha d).ge⟩

theorem paid_sentOn (h : SentOn env sender destination channelId c w w') :
    Paid env (c.share sender) w w' := by
  obtain ⟨-,rfl⟩ | h := h
  · exact .refl ..
  · exact paid_ibcTransferCoin h

/-- Coins that an account gets from a contract and sends on are paid by the contract. -/
theorem paid_moved_sentOn {contract : Address} (h₁ : Bank.Moved contract sender c w.bank b)
    (h : SentOn env sender destination channelId c { w with bank := b } w') :
    Paid env (c.share contract) w w' := by
  have hsent := paid_sentOn h
  refine ⟨hsent.tokens,hsent.store,fun a ha d => ?_⟩
  have h₁ := h₁.balance a d
  have h₂ := hsent.balance a ha d
  dsimp only at h₂
  omega

theorem paid_handleSendToIbc {contract : Address} {amount : ℕ}
    (h : w.handleSendToIbc env contract sender destination amount channelId = .ok w') :
    Paid env (fun a _ => if contract = a then amount else 0) w w' := by
  obtain ⟨denom,b,-,-,⟨-,b₁,hminted,hmoved⟩ | ⟨-,hmoved⟩,hsent⟩ := handleSendToIbc_ok h
  · have hsent := paid_sentOn hsent
    refine ⟨hsent.tokens,hsent.store,fun a ha d => ?_⟩
    have h₁ := hminted.balance a d
    have h₂ := hmoved.balance a d
    have h₃ := hsent.balance a ha d
    rw [share_of_account ha.moduleAccount] at h₁ h₂
    dsimp only at h₃
    omega
  · exact (paid_moved_sentOn hmoved hsent).mono fun a d => share_le ..

/-- A handler takes from the contract of the log what the event releases. -/
theorem paid_postLog {log : Log} (h : w.postLog env log = .ok w') :
    Paid env (fun a _ => if log.address = a then log.event.release else 0) w w' := by
  unfold postLog at h
  split_ifs at h
  · obtain ⟨address,event⟩ := log
    cases event with
    | sendToAccount recipient amount =>
      obtain ⟨denom,b,-,hmoved,rfl⟩ := handleSendToAccount_ok h
      refine Paid.mono (l := Coin.share ⟨denom,amount⟩ address) ⟨rfl,rfl,fun a _ d => ?_⟩
        fun a d => share_le ..
      have := hmoved.balance a d
      dsimp only at this ⊢
      omega
    | sendToIbc sender recipient amount
    | sendToIbcV2 sender channelId recipient amount extraData => exact paid_handleSendToIbc h
    | sendCroToIbc sender recipient amount =>
      obtain ⟨b,hmoved,hsent⟩ := handleSendCroToIbc_ok h
      exact (paid_moved_sentOn hmoved hsent).mono fun a d => share_le ..
    | sendToEvmChain | cancelSendToEvmChain | malformed | other =>
      cases h
      exact .refl ..
  · cases h
    exact .refl ..

end World

/-- The contract of a denomination was deployed by the module, and holds coins for its tokens and
`l` more. -/
def World.Issued (env : Env) (l : Address → Denom → ℕ) (w : World) (d : Denom) (c : Address) : Prop :=
  ∃ t, w.tokens c = some t ∧ t.owner = env.evmModuleAddress ∧ t.isSource = false ∧
    t.totalSupply+l c d ≤ w.bank.balance c d

structure World.Backed (env : Env) (l : Address → Denom → ℕ) (w : World) : Prop where
  inv : w.store.Inv
  plain : ∀ d c, w.store.getAutoContractByDenom d = some c → Plain env c
  issued : ∀ d c, w.store.getAutoContractByDenom d = some c → isSourceCoin d = false →
    w.Issued env l d c

namespace World

variable {env : Env} {w w' : World} {l l' : Address → Denom → ℕ} {d : Denom} {c : Address}

theorem Backed.mono (h : w.Backed env l) (hle : ∀ a d, l' a d ≤ l a d) : w.Backed env l' := by
  refine ⟨h.inv,h.plain,fun d c hauto hd => ?_⟩
  obtain ⟨t,ht,howner,hsource,hn⟩ := h.issued d c hauto hd
  exact ⟨t,ht,howner,hsource,(Nat.add_le_add_left (hle c d) _).trans hn⟩

theorem Backed.paid (h : w.Backed env fun a d => l a d+l' a d) (hp : Paid env l' w w') :
    w'.Backed env l := by
  refine ⟨hp.store ▸ h.inv,fun d c hauto => h.plain d c (hp.store ▸ hauto),fun d c hauto hd => ?_⟩
  rw [hp.store] at hauto
  obtain ⟨t,ht,howner,hsource,hn⟩ := h.issued d c hauto hd
  refine ⟨t,hp.tokens ▸ ht,howner,hsource,?_⟩
  have hb := hp.balance c (h.plain d c hauto) d
  dsimp only at hn
  omega

/-- Calls of others leave the contracts of the module as they are, with no more tokens. -/
theorem outside_kind {tokens tokens' : Address → Option Token} (h : Outside env tokens tokens')
    {t : Token} (ht : tokens c = some t) (howner : t.owner = env.evmModuleAddress)
    (hsource : t.isSource = false) : ∃ t', tokens' c = some t' ∧ t'.owner = env.evmModuleAddress ∧
      t'.isSource = false ∧ t'.totalSupply ≤ t.totalSupply := by
  induction h with
  | refl => exact ⟨t,ht,howner,hsource,le_rfl⟩
  | tail _ hcall ih =>
    obtain ⟨t₁,ht₁,howner₁,hsource₁,hle₁⟩ := ih
    obtain ⟨sender,contract,u,u',call,events,hsender,hu,hexec,rfl⟩ := hcall
    by_cases hc : c = contract
    · subst hc
      obtain rfl : t₁ = u := some.inj (ht₁.symm.trans hu)
      obtain ⟨hkind,hle⟩ := Token.exec_supply (howner₁ ▸ hsender) hsender hsource₁ hexec
      exact ⟨u',by simp,hkind.owner.trans howner₁,hkind.isSource.trans hsource₁,by omega⟩
    · exact ⟨t₁,by simpa [hc] using ht₁,howner₁,hsource₁,hle₁⟩

theorem Backed.ethereumTx {steps : List TxStep} (h : w.Backed env fun _ _ => 0)
    (htx : w.ethereumTx env steps = .ok w') : w'.Backed env fun _ _ => 0 := by
  refine ethereumTx_rule (I := fun logs u => u.Backed env fun a _ => owed logs a) htx h ?_ ?_ ?_ ?_
  · intro logs u sender contract call t t' events hu hsender ht hexec
    refine ⟨hu.inv,hu.plain,fun d c hauto hd => ?_⟩
    obtain ⟨t₁,ht₁,howner,hsource,hn⟩ := hu.issued d c hauto hd
    by_cases hc : contract = c
    · subst hc
      obtain rfl : t₁ = t := some.inj (ht₁.symm.trans ht)
      obtain ⟨hkind,hle⟩ := Token.exec_supply (howner ▸ hsender) hsender hsource hexec
      refine ⟨t',by simp [setToken],hkind.owner.trans howner,hkind.isSource.trans hsource,?_⟩
      simp only [owed_append,owed_events,if_true,setToken] at hn ⊢
      omega
    · refine ⟨t₁,by simpa [setToken,Ne.symm hc] using ht₁,howner,hsource,?_⟩
      simpa [owed_events,hc,setToken] using hn
  · intro logs u contract event hu hnone
    refine ⟨hu.inv,hu.plain,fun d c hauto hd => ?_⟩
    obtain ⟨t,ht,howner,hsource,hn⟩ := hu.issued d c hauto hd
    have hc : contract ≠ c := by
      rintro rfl
      simp [hnone] at ht
    exact ⟨t,ht,howner,hsource,by simpa [hc] using hn⟩
  · intro logs u contract t hu hnone
    refine ⟨hu.inv,hu.plain,fun d c hauto hd => ?_⟩
    obtain ⟨t₁,ht₁,howner,hsource,hn⟩ := hu.issued d c hauto hd
    have hc : c ≠ contract := by
      rintro rfl
      simp [hnone] at ht₁
    exact ⟨t₁,by simpa [setToken,hc] using ht₁,howner,hsource,hn⟩
  · intro log logs u v hu hpost
    refine Backed.paid (l := fun a _ => owed logs a) ?_ (paid_postLog hpost)
    exact hu.mono fun a d => by simp [Nat.add_comm]

end World

namespace Bank

variable {b b' : Bank} {c : Coin} {coins : List Coin} {src dst : Address}

theorem enough_of_sendCoins (hc : newCoins c = .ok coins) (h : sendCoins src dst coins b = .ok b')
    (a : Address) : c.share src a c.denom ≤ b.balance a c.denom := by
  rcases newCoins_ok hc with ⟨rfl,h0⟩ | rfl
  · simp [share_zero h0]
  · obtain ⟨b₁,h₁,-⟩ := bind_eq_ok.mp h
    have := (subCoin_ok (foldlM_one h₁)).1 a c.denom
    omega

end Bank

namespace World

variable {env : Env} {w w' : World} {l : Address → Denom → ℕ} {d denom : Denom}
  {c contract sender receiver acc : Address} {coin : Coin} {amount : ℕ} {t : Token} {call : TokenCall}

theorem call_other (h : w.callModuleCRC21 env contract call = .ok w') (hc : c ≠ contract)
    (ht : w.tokens c = some t) (howner : t.owner = env.evmModuleAddress)
    (hsource : t.isSource = false) : ∃ t', w'.tokens c = some t' ∧ t'.owner = env.evmModuleAddress ∧
      t'.isSource = false ∧ t'.totalSupply ≤ t.totalSupply := by
  obtain ⟨tokens,rfl,⟨t₁,t',events,-,-,rfl⟩ | ⟨-,hout⟩⟩ := callModuleCRC21_ok h
  · exact ⟨t,by simpa [hc] using ht,howner,hsource,le_rfl⟩
  · exact outside_kind hout ht howner hsource

/-- Recorded contracts have one denomination, so no other one is called for it. -/
theorem Backed.ne_of_denom (h : w.Backed env l) (hauto : w.store.getAutoContractByDenom d = some c)
    (hcontract : w.store.getDenomByContract contract = some denom) (hd : d ≠ denom) : c ≠ contract := by
  rintro rfl
  exact hd (some.inj (((h.inv.consistent c d).mpr (.inr hauto)).symm.trans hcontract))

variable {autoDeploy : Bool}

theorem findContract_denom {r : Address × World} (hinv : r.2.store.Inv)
    (h : w.findContract env denom autoDeploy = .ok r) :
    r.2.store.getDenomByContract r.1 = some denom := by
  obtain ⟨hknown,hr⟩ | ⟨-,hr₁,-,-,hr⟩ := findContract_ok h
  · rw [hr] at hinv ⊢
    exact hinv.consistent.getDenomByContract hknown
  · refine (hinv.consistent _ _).mpr (.inr ?_)
    rw [hr,hr₁]
    simp [Store.lookup_setAuto]

theorem Backed.findContract {r : Address × World} (hplain : ∀ k, Plain env (env.createAddress k))
    (h : w.Backed env l) (hl : ∀ a, l a denom ≤ w.bank.balance a denom) (hinv : r.2.store.Inv)
    (hfind : w.findContract env denom autoDeploy = .ok r) : r.2.Backed env l := by
  obtain ⟨-,hr⟩ | ⟨-,-,hfree,-,hr⟩ := findContract_ok hfind
  · exact hr ▸ h
  · refine ⟨hinv,fun d c hauto => ?_,fun d c hauto hd => ?_⟩
    · rw [hr,Store.lookup_setAuto] at hauto
      split_ifs at hauto
      · exact some.inj hauto ▸ hplain w.nonce
      · exact h.plain d c hauto
    · rw [hr] at hauto ⊢
      rw [Store.lookup_setAuto] at hauto
      split_ifs at hauto with hdenom
      · obtain rfl := some.inj hauto
        refine ⟨_,Function.update_self ..,rfl,rfl,?_⟩
        simpa [Token.create,hdenom] using hl _
      · obtain ⟨t,ht,howner,hsource,hn⟩ := h.issued d c hauto hd
        have hc : c ≠ env.createAddress w.nonce := by
          rintro rfl
          simp [hfree] at ht
        exact ⟨t,by simpa [hc] using ht,howner,hsource,hn⟩

theorem enough_of_convert (h : w.convertCoinFromNativeToCRC21 env sender coin autoDeploy = .ok w')
    (a : Address) : coin.share sender a coin.denom ≤ w.bank.balance a coin.denom := by
  unfold World.convertCoinFromNativeToCRC21 at h
  rw [ite_error_eq_ok] at h
  obtain ⟨⟨contract,w₁⟩,hfind,h⟩ := bind_eq_ok.mp h.2
  obtain ⟨coins,hcoins,h⟩ := bind_eq_ok.mp h
  have hbank : w₁.bank = w.bank := by
    obtain ⟨-,rfl⟩ | ⟨-,-,-,-,rfl⟩ := findContract_ok hfind <;> rfl
  rw [← hbank]
  split_ifs at h
  · obtain ⟨w₂,h₂,-⟩ := bind_eq_ok.mp h
    obtain ⟨b,hb,-⟩ := onBank_ok h₂
    exact Bank.enough_of_sendCoins hcoins hb a
  · obtain ⟨w₂,h₂,-⟩ := bind_eq_ok.mp h
    obtain ⟨b,hb,-⟩ := onBank_ok h₂
    exact Bank.enough_of_sendCoins hcoins hb a

/-- The coins of a conversion may come from a contract that holds them for nobody. -/
theorem Backed.convertCoinFromNativeToCRC21 (hplain : ∀ k, Plain env (env.createAddress k))
    (h : w.Backed env (coin.share sender)) (hinv : w'.store.Inv)
    (hok : w.convertCoinFromNativeToCRC21 env sender coin autoDeploy = .ok w') :
    w'.Backed env fun _ _ => 0 := by
  obtain ⟨-,contract,w₁,b,hfind,hrest⟩ := convertCoinFromNativeToCRC21_ok hok
  have hstore : w'.store = w₁.store := by
    obtain ⟨-,-,hcall⟩ | ⟨-,-,hcall⟩ := hrest <;> exact (call_frame hcall).2
  rw [hstore] at hinv
  have h₁ : w₁.Backed env (coin.share sender) :=
    h.findContract hplain (enough_of_convert hok) hinv hfind
  have hcontract : w₁.store.getDenomByContract contract = some coin.denom :=
    findContract_denom hinv hfind
  refine ⟨hstore ▸ hinv,fun d c hauto => h₁.plain d c (hstore ▸ hauto),fun d c hauto hd => ?_⟩
  rw [hstore] at hauto
  obtain ⟨t,ht,howner,hsource,hn⟩ := h₁.issued d c hauto hd
  obtain ⟨hcoin,⟨b₁,hmoved,hburned⟩,hcall⟩ | ⟨-,hmoved,hcall⟩ := hrest
  · have hdenom : d ≠ coin.denom := by
      rintro rfl
      simp [hcoin] at hd
    obtain ⟨t',ht',howner',hsource',hle⟩ := call_other hcall
      (h₁.ne_of_denom hauto hcontract hdenom) ht howner hsource
    refine ⟨t',ht',howner',hsource',?_⟩
    rw [(call_frame hcall).1]
    have hm := hmoved.balance c d
    have hb := hburned.balance c d
    rw [share_of_denom hdenom] at hm hb
    rw [share_of_denom hdenom] at hm
    dsimp only
    omega
  · have hm := hmoved.balance c d
    by_cases hc : c = contract
    · subst hc
      obtain ⟨t',events,hexec,ht'⟩ := call_self hcall ht
      simp only [Token.exec,if_true] at hexec
      obtain ⟨hmint,-⟩ := Token.return_eq_some.mp hexec
      have hminted := (Token.mint_ok hmint).2
      refine ⟨t',ht',hminted.kind.owner.trans howner,hminted.kind.isSource.trans hsource,?_⟩
      rw [(call_frame hcall).1,hminted.totalSupply]
      have hdenom : d = coin.denom :=
        some.inj (((hinv.consistent c d).mpr (.inr hauto)).symm.trans hcontract)
      have hshare : coin.share c c d = coin.amount := if_pos ⟨rfl,hdenom⟩
      dsimp only
      omega
    · obtain ⟨t',ht',howner',hsource',hle⟩ := call_other hcall hc ht howner hsource
      refine ⟨t',ht',howner',hsource',?_⟩
      rw [(call_frame hcall).1]
      rw [share_of_account hc] at hm
      dsimp only
      omega

theorem Backed.convertCoinFromCRC21ToNative (h : w.Backed env fun _ _ => 0)
    (hok : w.convertCoinFromCRC21ToNative env contract receiver amount = .ok w') :
    w'.Backed env fun _ _ => 0 := by
  have hstore : w'.store = w.store := (kept_convertCoinFromCRC21ToNative hok).1
  obtain ⟨denom,hcontract,hrest⟩ := convertCoinFromCRC21ToNative_ok hok
  refine ⟨hstore ▸ h.inv,fun d c hauto => h.plain d c (hstore ▸ hauto),fun d c hauto hd => ?_⟩
  rw [hstore] at hauto
  obtain ⟨t,ht,howner,hsource,hn⟩ := h.issued d c hauto hd
  obtain ⟨hcoin,w₁,b₁,b,hcall,hminted,hmoved,rfl⟩ | ⟨-,b,hmoved,hcall⟩ := hrest
  · have hdenom : d ≠ denom := by
      rintro rfl
      simp [hcoin] at hd
    obtain ⟨t',ht',howner',hsource',hle⟩ := call_other hcall
      (h.ne_of_denom hauto hcontract hdenom) ht howner hsource
    refine ⟨t',ht',howner',hsource',?_⟩
    have hm := hminted.balance c d
    have hb := hmoved.balance c d
    rw [share_of_denom hdenom,(call_frame hcall).1] at hm
    rw [share_of_denom hdenom,share_of_denom hdenom] at hb
    dsimp only at hn ⊢
    omega
  · have hm := hmoved.balance c d
    dsimp only at hn
    by_cases hc : c = contract
    · subst hc
      obtain ⟨t',events,hexec,ht'⟩ := call_self hcall ht
      simp only [Token.exec,if_true] at hexec
      obtain ⟨hburn,-⟩ := Token.return_eq_some.mp hexec
      have hburned := Token.unsafeBurn_ok hburn
      refine ⟨t',ht',hburned.kind.owner.trans howner,hburned.kind.isSource.trans hsource,?_⟩
      rw [(call_frame hcall).1]
      have htotal := hburned.totalSupply
      have hshare := share_le ⟨denom,amount⟩ c c d
      simp only [if_true] at hshare
      dsimp only
      omega
    · obtain ⟨t',ht',howner',hsource',hle⟩ := call_other hcall hc ht howner hsource
      refine ⟨t',ht',howner',hsource',?_⟩
      rw [(call_frame hcall).1]
      rw [share_of_account hc] at hm
      dsimp only
      omega

theorem Backed.convertVoucher (hplain : ∀ k, Plain env (env.createAddress k))
    (h : w.Backed env (coin.share acc)) (hinv : w'.store.Inv)
    (hok : convertVoucher env acc w coin = .ok w') : w'.Backed env fun _ _ => 0 := by
  obtain ⟨-,-,b₁,b₂,b₃,h₁,h₂,h₃,rfl⟩ | ⟨-,autoDeploy,hok⟩ := convertVoucher_ok hok
  · have hpaid : Paid env (coin.share acc) w { w with bank := b₃ } := by
      refine ⟨rfl,rfl,fun a ha d => ?_⟩
      have h₁ := h₁.balance a d
      have h₂ := h₂.balance a d
      have h₃ := h₃.balance a d
      rw [share_of_account ha.moduleAccount] at h₁ h₂ h₃
      dsimp only
      omega
    exact Backed.paid (l := fun _ _ => 0) (h.mono fun a d => by simp) hpaid
  · exact h.convertCoinFromNativeToCRC21 hplain hinv hok

theorem Backed.credit {c : Credit} (h : w.Backed env fun _ _ => 0)
    (hok : w.credit env receiver c = .ok w') : w'.Backed env (c.coin.share receiver) := by
  obtain ⟨-,b,rfl,hb⟩ := credit_ok hok
  refine ⟨h.inv,h.plain,fun d a hauto hd => ?_⟩
  obtain ⟨t,ht,howner,hsource,hn⟩ := h.issued d a hauto hd
  have ha := h.plain d a hauto
  refine ⟨t,ht,howner,hsource,?_⟩
  obtain ⟨-,b₁,hminted,hmoved⟩ | ⟨channel,hmoved⟩ := hb
  · have hm := hminted.balance a d
    have hb := hmoved.balance a d
    rw [share_of_account ha.transferAccount] at hm hb
    dsimp only at hn ⊢
    omega
  · have hb := hmoved.balance a d
    rw [share_of_account (ha.escrowAddress channel)] at hb
    dsimp only at hn ⊢
    omega

theorem Backed.receivePacket {c : Credit} (hplain : ∀ k, Plain env (env.createAddress k))
    (h : w.Backed env fun _ _ => 0) (hinv : w'.store.Inv)
    (hok : w.receivePacket env receiver c = .ok w') : w'.Backed env fun _ _ => 0 := by
  obtain ⟨w₁,hcredit,rfl | hok⟩ := receivePacket_ok hok
  · exact (h.credit hcredit).mono fun _ _ => Nat.zero_le _
  · exact (h.credit hcredit).convertVoucher hplain hinv hok

/-- The account is no contract of the module, and never will be. -/
structure Outsider (env : Env) (w : World) (a : Address) : Prop where
  created : ∀ k, a ≠ env.createAddress k
  auto : ∀ d, w.store.getAutoContractByDenom d ≠ some a

theorem Backed.share (h : w.Backed env fun _ _ => 0) (hacc : Outsider env w acc) (coin : Coin) :
    w.Backed env (coin.share acc) := by
  refine ⟨h.inv,h.plain,fun d c hauto hd => ?_⟩
  have hc : c ≠ acc := by
    rintro rfl
    exact hacc.auto d hauto
  unfold Issued
  rw [share_of_account hc]
  exact h.issued d c hauto hd

/-- New contracts are at addresses that the module creates. -/
theorem auto_or_created {s s' : Store} {n n' : ℕ} (h : Grows env s n s' n')
    (hauto : s'.getAutoContractByDenom d = some c) :
    s.getAutoContractByDenom d = some c ∨ ∃ k, c = env.createAddress k := by
  induction h with
  | refl => exact .inl hauto
  | @deploy s s' n n' e _ _ _ _ ih =>
    rcases ih hauto with h | h
    · rw [Store.lookup_setAuto] at h
      split_ifs at h
      · exact .inr ⟨n,(some.inj h).symm⟩
      · exact .inl h
    · exact .inr h

theorem Outsider.grown (h : Outsider env w acc) (hgrown : Grown env w w') : Outsider env w' acc := by
  refine ⟨h.created,fun d hauto => ?_⟩
  rcases auto_or_created hgrown hauto with hauto | ⟨k,hk⟩
  · exact h.auto d hauto
  · exact h.created k hk

theorem grown_vouchers {coins : List Coin} (h : coins.foldlM (convertVoucher env acc) w = .ok w') :
    Grown env w w' :=
  foldlM_invariant (I := Grown env w) h (.refl ..) fun _ _ _ hu hv => hu.trans (grown_convertVoucher hv)

section
variable (hinj : Set.InjOn env.createAddress (Set.Iio (2^64)))
  (hplain : ∀ k, Plain env (env.createAddress k))
include hinj hplain

theorem Backed.vouchers {coins : List Coin} (h : w.Backed env fun _ _ => 0)
    (hacc : Outsider env w acc)
    (hfresh : ∀ k, w.nonce ≤ k → k < w'.nonce → w.store.getDenomByContract (env.createAddress k) = none)
    (hok : coins.foldlM (World.convertVoucher env acc) w = .ok w') : w'.Backed env fun _ _ => 0 := by
  -- The contracts that are still to come are not registered either.
  have hinv : ∀ u, Grown env w u → Grown env u w' → u.store.Inv := fun u hu hu' =>
    hu.inv hinj h.inv fun k hk hk' => hfresh k hk (hk'.trans_le hu'.le.1)
  refine (foldlM_rest (I := fun coins u => Grown env w u ∧
    coins.foldlM (World.convertVoucher env acc) u = .ok w' ∧ u.Backed env fun _ _ => 0) hok
    ⟨.refl ..,hok,h⟩ ?_).2.2
  rintro coin coins u v ⟨hgrown,hrest,hu⟩ hv
  rw [List.foldlM_cons,hv] at hrest
  have hgrown' : Grown env w v := hgrown.trans (grown_convertVoucher hv)
  exact ⟨hgrown',hrest,(hu.share (hacc.grown hgrown) coin).convertVoucher hplain
    (hinv v hgrown' (grown_vouchers hrest)) hv⟩

end

/-- Balances, contracts and deployments are as before. -/
structure Untouched (w w' : World) : Prop where
  tokens : w'.tokens = w.tokens
  balance : w'.bank.balance = w.bank.balance
  auto : w'.store.auto = w.store.auto

theorem Backed.untouched (h : w.Backed env l) (hsame : Untouched w w') (hinv : w'.store.Inv) :
    w'.Backed env l := by
  have hauto : w'.store.getAutoContractByDenom = w.store.getAutoContractByDenom := by
    funext d
    rw [Store.getAutoContractByDenom,hsame.auto,Store.getAutoContractByDenom]
  refine ⟨hinv,hauto ▸ h.plain,fun d c hc hd => ?_⟩
  rw [hauto] at hc
  unfold Issued
  rw [hsame.tokens,hsame.balance]
  exact h.issued d c hc hd

theorem untouched_register {msg : MsgUpdateTokenMapping}
    (h : w.registerOrUpdateTokenMapping env msg = .ok w') : Untouched w w' := by
  obtain ⟨metadata,s,rfl,⟨a,hset⟩ | rfl⟩ := registerOrUpdateTokenMapping_ok h
  · exact ⟨rfl,rfl,(Store.setExternal_ok hset).2.2.1⟩
  · refine ⟨rfl,rfl,?_⟩
    unfold Store.deleteExternalContractForDenom
    cases w.store.getExternalContractByDenom msg.denom <;> rfl

variable {op : Op}

/-- The account whose coins the operation takes is no contract of the module. -/
def ByOutsider (env : Env) (w : World) : Op → Prop
  | .convertVouchersToEvmCoins source _ | .onRecvVouchers _ source | .ibcTransferCoins source _ _ _ =>
    ∀ acc, env.accAddressFromBech32 source = some acc → Outsider env w acc
  | .convertCoinFromNativeToCRC21 sender _ _ => Outsider env w sender
  | _ => True

section
variable (hinj : Set.InjOn env.createAddress (Set.Iio (2^64)))
  (hplain : ∀ k, Plain env (env.createAddress k))
include hinj hplain

theorem Backed.step (h : w.Backed env fun _ _ => 0) (hfresh : w.Fresh env op)
    (hby : w.ByOutsider env op) (hstep : w.step env op = some w') : w'.Backed env fun _ _ => 0 := by
  have hinv : w'.store.Inv := (inv_step_iff hinj h.inv hstep).mpr hfresh
  have hnew := hfresh w' hstep
  have happly := step_eq_some.mp hstep
  have hvouchers : ∀ {source coins}, (∀ acc, env.accAddressFromBech32 source = some acc →
      Outsider env w acc) → w.convertVouchersToEvmCoins env source coins = .ok w' →
      w'.Backed env fun _ _ => 0 := by
    intro source coins hby hok
    obtain ⟨acc,hacc,hok⟩ := convertVouchersToEvmCoins_ok hok
    exact h.vouchers hinj hplain (hby acc hacc) hnew hok
  cases op with
  | updateTokenMapping msg =>
    exact h.untouched (untouched_register (updateTokenMapping_ok happly).2) hinv
  | tokenMappingChange p =>
    obtain ⟨msg,-,happly⟩ := tokenMappingChange_ok happly
    exact h.untouched (untouched_register happly) hinv
  | updateParams authority params =>
    obtain ⟨-,rfl⟩ := updateParams_ok happly
    exact h.untouched ⟨rfl,rfl,rfl⟩ hinv
  | updatePermissions source address permissions =>
    obtain ⟨ps,rfl⟩ := updatePermissions_ok happly
    exact h.untouched ⟨rfl,rfl,rfl⟩ hinv
  | convertVouchersToEvmCoins source coins => exact hvouchers hby happly
  | onRecvVouchers tokens receiver =>
    rcases onRecvVouchers_ok happly with hok | rfl
    · exact hvouchers hby hok
    · exact h
  | ibcTransferCoins source destination coins channelId =>
    obtain ⟨acc,hacc,hok⟩ := ibcTransferCoins_ok happly
    have hout := hby acc hacc
    refine (foldlM_invariant (I := fun u => u.store = w.store ∧ u.Backed env fun _ _ => 0) hok
      ⟨rfl,h⟩ ?_).2
    rintro coin u v ⟨hstore,hu⟩ hv
    have hpaid := paid_ibcTransferCoin hv
    have hu' : u.Backed env (coin.share acc) := hu.share ⟨hout.created,hstore ▸ hout.auto⟩ coin
    exact ⟨hpaid.store.trans hstore,
      Backed.paid (l := fun _ _ => 0) (hu'.mono fun a d => by simp) hpaid⟩
  | convertCoinFromNativeToCRC21 sender coin autoDeploy =>
    exact (h.share hby coin).convertCoinFromNativeToCRC21 hplain hinv happly
  | convertCoinFromCRC21ToNative contract receiver amount =>
    exact h.convertCoinFromCRC21ToNative happly
  | ethereumTx steps => exact h.ethereumTx happly
  | receivePacket receiver c => exact h.receivePacket hplain hinv happly

/-- In a run that registers no contract before the module deploys it, and in which no contract of
the module acts as an account, a contract for vouchers holds coins for all of its tokens. -/
theorem supply_backed {w₀ : World} (hw₀ : w₀.Backed env fun _ _ => 0)
    (hrun : Transition.Run (World.step env) (fun w op => w.Fresh env op ∧ w.ByOutsider env op) w₀ w)
    {d : Denom} {c : Address} {t : Token} (hauto : w.store.getAutoContractByDenom d = some c)
    (hd : isSourceCoin d = false) (ht : w.tokens c = some t) :
    t.totalSupply ≤ w.bank.balance c d := by
  have hbacked : w.Backed env fun _ _ => 0 := hrun.invariant (I := fun w => w.Backed env fun _ _ => 0)
    hw₀ fun w op w' hw hop h => hw.step hinj hplain hop.1 hop.2 h
  obtain ⟨t',ht',-,-,hn⟩ := hbacked.issued d c hauto hd
  obtain rfl := some.inj (ht.symm.trans ht')
  exact hn

end

end World

namespace Sample

theorem address_ne_created {i : UInt8} (hi : i ≠ 1) (k : ℕ) : address i ≠ created k := by
  intro h
  exact hi (List.cons.inj (Address.mk.inj h)).1

theorem plain_created (k : ℕ) : Plain env (env.createAddress k) :=
  ⟨(address_ne_created (by decide) k).symm,(address_ne_created (by decide) k).symm,
    fun _ => (address_ne_created (by decide) k).symm⟩

theorem backed_world : world.Backed env fun _ _ => 0 :=
  ⟨Store.inv_empty ..,fun d c h => by simp [world,Store.getAutoContractByDenom] at h,
    fun d c h => by simp [world,Store.getAutoContractByDenom] at h⟩

end Sample

namespace World

open Sample in
theorem supply_backed_voucher : ∃ w t, Transition.Run (World.step env)
    (fun w op => w.Fresh env op ∧ w.ByOutsider env op) world w ∧
    w.store.getAutoContractByDenom (ibcDenom 66) = some (created 0) ∧
    w.tokens (created 0) = some t ∧ 0 < t.totalSupply ∧
    t.totalSupply ≤ w.bank.balance (created 0) (ibcDenom 66) := by
  have hstep : (world.step env (.convertCoinFromNativeToCRC21 (address 9) ⟨ibcDenom 66,5⟩ true)).any
      (fun w => w.store.getAutoContractByDenom (ibcDenom 66) = some (created 0) ∧
        (w.tokens (created 0)).any (fun t => 0 < t.totalSupply) = true) = true := by
    decide +kernel
  obtain ⟨w,hw,h⟩ := (Option.any_eq_true ..).mp hstep
  obtain ⟨hauto,hany⟩ := of_decide_eq_true h
  obtain ⟨t,ht,hpos⟩ := (Option.any_eq_true ..).mp hany
  have hfresh : world.Fresh env (.convertCoinFromNativeToCRC21 (address 9) ⟨ibcDenom 66,5⟩ true) :=
    fun _ _ _ _ _ => by simp [world,Store.getDenomByContract]
  have hby : world.ByOutsider env (.convertCoinFromNativeToCRC21 (address 9) ⟨ibcDenom 66,5⟩ true) :=
    ⟨address_ne_created (by decide),fun d => by simp [world,Store.getAutoContractByDenom]⟩
  have hrun : Transition.Run (World.step env)
      (fun w op => w.Fresh env op ∧ w.ByOutsider env op) world w := .single ⟨_,⟨hfresh,hby⟩,hw⟩
  exact ⟨w,t,hrun,hauto,ht,of_decide_eq_true hpos,
    supply_backed injOn_created plain_created backed_world hrun hauto (by decide) ht⟩

open Sample in
/-- A contract that is registered for another voucher before the module deploys it has tokens of
both and holds coins of one. -/
theorem supply_unbacked : ∃ w₁ w₂ w t,
    world.step env (.tokenMappingChange ⟨ibcDenom 65,(created 0).hex env.checksum,[],0⟩) = some w₁ ∧
    w₁.step env (.convertCoinFromNativeToCRC21 (address 9) ⟨ibcDenom 66,5⟩ true) = some w₂ ∧
    w₂.step env (.convertCoinFromNativeToCRC21 (address 9) ⟨ibcDenom 65,7⟩ true) = some w ∧
    w.store.getAutoContractByDenom (ibcDenom 66) = some (created 0) ∧
    isSourceCoin (ibcDenom 66) = false ∧
    w.tokens (created 0) = some t ∧ t.owner = env.evmModuleAddress ∧ t.totalSupply = 12 ∧
    w.bank.balance (created 0) (ibcDenom 66) = 5 := by
  have hrun : (((world.step env
      (.tokenMappingChange ⟨ibcDenom 65,(created 0).hex env.checksum,[],0⟩)).bind fun w =>
      w.step env (.convertCoinFromNativeToCRC21 (address 9) ⟨ibcDenom 66,5⟩ true)).bind fun w =>
      w.step env (.convertCoinFromNativeToCRC21 (address 9) ⟨ibcDenom 65,7⟩ true)).any
      (fun w => w.store.getAutoContractByDenom (ibcDenom 66) = some (created 0) ∧
        (w.tokens (created 0)).any (fun t => t.owner = env.evmModuleAddress ∧
          t.totalSupply = 12) = true ∧
        w.bank.balance (created 0) (ibcDenom 66) = 5) = true := by
    decide +kernel
  obtain ⟨w,hw,h⟩ := (Option.any_eq_true ..).mp hrun
  obtain ⟨w₂,hw₂,hw⟩ := bind_eq_some_iff.mp hw
  obtain ⟨w₁,hw₁,hw₂⟩ := bind_eq_some_iff.mp hw₂
  obtain ⟨hauto,hany,hbalance⟩ := of_decide_eq_true h
  obtain ⟨t,ht,hsupply⟩ := (Option.any_eq_true ..).mp hany
  obtain ⟨howner,hsupply⟩ := of_decide_eq_true hsupply
  exact ⟨w₁,w₂,w,t,hw₁,hw₂,hw,hauto,by decide,ht,howner,hsupply,hbalance⟩

end World

end Cronos
