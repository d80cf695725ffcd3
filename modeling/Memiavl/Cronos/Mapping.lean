import Memiavl.Cronos.Effect

/-! The mapping between denominations and contracts. Contracts find their denomination again as long
as no contract is deployed at an address that is registered already. -/
namespace Cronos

open Fallible Option

namespace Store

variable {s s' : Store} {a x : Address} {d e : Denom}

/-- A contract finds exactly the denomination it is recorded for. -/
def Consistent (s : Store) : Prop := ∀ a d, s.getDenomByContract a = some d ↔
  s.getExternalContractByDenom d = some a ∨ s.getAutoContractByDenom d = some a

/-- No denomination has one contract twice; deleting the external one would hide the other. -/
structure Inv (s : Store) : Prop where
  consistent : s.Consistent
  separate : ∀ d a, s.getExternalContractByDenom d = some a → s.getAutoContractByDenom d ≠ some a

theorem inv_empty (params : Option Params) (permissions : Finmap fun _ : Address => UInt64) :
    ({ params := params, permissions := permissions } : Store).Inv := by
  refine ⟨fun a d => ?_,fun d a h => ?_⟩
  · simp [getDenomByContract,getExternalContractByDenom,getAutoContractByDenom]
  · simp [getExternalContractByDenom] at h

theorem getDenomByContract_eq : s.getDenomByContract a = some d ↔
    s.denoms.lookup a = some d ∧ d ≠ [] := by
  unfold getDenomByContract
  cases s.denoms.lookup a with
  | none => simp
  | some e =>
    by_cases he : e = []
    · subst he
      simp
    · simp only [List.length_eq_zero_iff,he,if_false,some.injEq]
      exact ⟨fun h => ⟨h,h ▸ he⟩,fun h => h.1⟩

theorem getContractByDenom_eq_none : s.getContractByDenom d = none ↔
    s.getExternalContractByDenom d = none ∧ s.getAutoContractByDenom d = none := by
  unfold getContractByDenom
  cases s.getExternalContractByDenom d <;> simp

theorem getContractByDenom_or (h : s.getContractByDenom d = some a) :
    s.getExternalContractByDenom d = some a ∨ s.getAutoContractByDenom d = some a := by
  unfold getContractByDenom at h
  cases he : s.getExternalContractByDenom d with
  | none =>
    simp only [he] at h
    exact .inr h
  | some b =>
    simp only [he] at h
    exact .inl h

/-- The contract that a denomination is converted with finds the denomination. -/
theorem Consistent.getDenomByContract (hs : s.Consistent) (h : s.getContractByDenom d = some a) :
    s.getDenomByContract a = some d :=
  (hs a d).mpr (getContractByDenom_or h)

theorem setExternal_ok (h : s.setExternalContractForDenom d a = .ok s') :
    s.getDenomByContract a = none ∧ s'.external = s.external.insert d a ∧ s'.auto = s.auto ∧
      ∀ x, s'.denoms.lookup x = if x = a then some d
        else if s.getExternalContractByDenom d = some x then none else s.denoms.lookup x := by
  unfold setExternalContractForDenom at h
  rw [ite_error_eq_ok] at h
  obtain ⟨hnone,h⟩ := h
  cases h
  refine ⟨not_isSome_iff_eq_none.mp hnone,rfl,rfl,fun x => ?_⟩
  by_cases hx : x = a
  · subst hx
    simp [Finmap.lookup_insert]
  · rw [if_neg hx]
    dsimp only
    rw [Finmap.lookup_insert_of_ne _ hx]
    cases hext : s.getExternalContractByDenom d with
    | none => simp
    | some b =>
      by_cases hb : b = x
      · subst hb
        simp [Finmap.lookup_erase]
      · simp [Finmap.lookup_erase_ne (Ne.symm hb),hb]

theorem Inv.setExternal (hs : s.Inv) (hd : d ≠ []) (h : s.setExternalContractForDenom d a = .ok s') :
    s'.Inv := by
  obtain ⟨hnone,hext,hauto,hdenoms⟩ := setExternal_ok h
  -- Nothing is recorded under the new contract.
  have hfresh : ∀ e, s.getExternalContractByDenom e ≠ some a ∧ s.getAutoContractByDenom e ≠ some a := by
    intro e
    have := (hs.consistent a e).not.mp (by simp [hnone])
    tauto
  have hext' : ∀ e, s'.getExternalContractByDenom e = if e = d then some a
      else s.getExternalContractByDenom e := by
    intro e
    by_cases he : e = d
    · subst he
      simp [getExternalContractByDenom,hext,Finmap.lookup_insert]
    · simp [getExternalContractByDenom,hext,Finmap.lookup_insert_of_ne _ he,he]
  have hauto' : ∀ e, s'.getAutoContractByDenom e = s.getAutoContractByDenom e := fun e => by
    rw [getAutoContractByDenom,hauto,getAutoContractByDenom]
  refine ⟨fun x e => ?_,fun e x => ?_⟩
  · rw [getDenomByContract_eq,hdenoms,hext',hauto']
    have hold := hs.consistent x e
    rw [getDenomByContract_eq] at hold
    have hsep := hs.separate d x
    have hsame := hs.consistent x d
    have hfresh := hfresh e
    by_cases hx : x = a
    · subst hx
      by_cases he : e = d
      · subst he
        simp [hd]
      · simp only [if_true,some.injEq,he,if_false]
        tauto
    · by_cases he : e = d
      · subst he
        by_cases hex : s.getExternalContractByDenom e = some x
        · simp [hx,hex,hsep hex,Ne.symm hx]
        · simp only [hx,hex,if_false,if_true,some.injEq,hold,false_or]
          simp [Ne.symm hx]
      · by_cases hex : s.getExternalContractByDenom d = some x
        · have hone : s.getDenomByContract x = some d := hsame.mpr (.inl hex)
          have hnot := (hs.consistent x e).not.mp (by simp [hone,Ne.symm he])
          simp only [hx,hex,he,if_false,if_true]
          tauto
        · simp only [hx,hex,he,if_false,hold]
  · rw [hext',hauto']
    by_cases he : e = d
    · subst he
      simp only [if_true,some.injEq]
      rintro rfl
      exact (hfresh e).2
    · simp only [he,if_false]
      exact hs.separate e x

theorem Inv.delete (hs : s.Inv) (d : Denom) : (s.deleteExternalContractForDenom d).Inv := by
  unfold deleteExternalContractForDenom
  cases hext : s.getExternalContractByDenom d with
  | none => exact hs
  | some b =>
    have hext' : ∀ e, (s.external.erase d).lookup e = if e = d then none
        else s.getExternalContractByDenom e := by
      intro e
      by_cases he : e = d
      · subst he
        simp [Finmap.lookup_erase]
      · simp [Finmap.lookup_erase_ne he,he,getExternalContractByDenom]
    refine ⟨fun x e => ?_,fun e x => ?_⟩
    · rw [getDenomByContract_eq]
      simp only [getExternalContractByDenom,getAutoContractByDenom,hext']
      have hold := hs.consistent x e
      rw [getDenomByContract_eq] at hold
      simp only [getExternalContractByDenom,getAutoContractByDenom] at hold
      by_cases hx : x = b
      · subst hx
        have hone : s.getDenomByContract x = some d := (hs.consistent x d).mpr (.inl hext)
        have hsep := hs.separate d x hext
        have hnot := (hs.consistent x e).not
        rw [hone] at hnot
        simp only [Finmap.lookup_erase]
        by_cases he : e = d
        · subst he
          simpa [getAutoContractByDenom] using hsep
        · have hneither := hnot.mp (by simpa using Ne.symm he)
          simp only [he,if_false]
          exact ⟨fun h => (nomatch h.1),fun h => absurd h hneither⟩
      · rw [Finmap.lookup_erase_ne hx,hold]
        by_cases he : e = d
        · subst he
          have : s.external.lookup e ≠ some x := by
            rw [show s.external.lookup e = some b from hext]
            simpa using Ne.symm hx
          simp [this]
        · simp [he]
    · simp only [getExternalContractByDenom,getAutoContractByDenom,hext']
      by_cases he : e = d
      · simp [he]
      · simp only [he,if_false]
        exact hs.separate e x

theorem lookup_setAuto (s : Store) (d : Denom) (a : Address) (e : Denom) :
    (s.setAutoContractForDenom d a).getAutoContractByDenom e =
      if e = d then some a else s.getAutoContractByDenom e := by
  by_cases he : e = d
  · subst he
    simp [setAutoContractForDenom,getAutoContractByDenom,Finmap.lookup_insert]
  · simp [setAutoContractForDenom,getAutoContractByDenom,Finmap.lookup_insert_of_ne _ he,he]

theorem getDenomByContract_setAuto_of_ne (s : Store) (d : Denom) (h : x ≠ a) :
    (s.setAutoContractForDenom d a).getDenomByContract x = s.getDenomByContract x := by
  simp only [getDenomByContract,setAutoContractForDenom,Finmap.lookup_insert_of_ne _ h]

theorem getDenomByContract_setAuto_self (s : Store) (hd : d ≠ []) (a : Address) :
    (s.setAutoContractForDenom d a).getDenomByContract a = some d := by
  rw [getDenomByContract_eq]
  exact ⟨Finmap.lookup_insert _,hd⟩

/-- A denomination without such a contract gets one that is not registered. -/
theorem Inv.setAuto (hs : s.Inv) (hd : d ≠ []) (hauto : s.getAutoContractByDenom d = none)
    (hfresh : s.getDenomByContract a = none) : (s.setAutoContractForDenom d a).Inv := by
  have hfree : ∀ e, s.getExternalContractByDenom e ≠ some a ∧ s.getAutoContractByDenom e ≠ some a := by
    intro e
    have := (hs.consistent a e).not.mp (by simp [hfresh])
    tauto
  have hsame : ∀ e, (s.setAutoContractForDenom d a).getExternalContractByDenom e =
      s.getExternalContractByDenom e := fun e => rfl
  refine ⟨fun x e => ?_,fun e x => ?_⟩
  · rw [hsame,lookup_setAuto]
    by_cases hx : x = a
    · subst hx
      rw [getDenomByContract_setAuto_self s hd]
      by_cases he : e = d
      · simp [he]
      · simp [he,Ne.symm he,hfree e]
    · rw [getDenomByContract_setAuto_of_ne s d hx,hs.consistent x e]
      by_cases he : e = d
      · subst he
        simp [hauto,Ne.symm hx]
      · simp [he]
  · rw [hsame,lookup_setAuto]
    by_cases he : e = d
    · subst he
      rintro hext heq
      obtain rfl : a = x := by simpa using heq
      exact (hfree e).1 hext
    · simp only [he,if_false]
      exact hs.separate e x

end Store

theorem ne_nil_of_valid {d : Denom} (h : isValidCoinDenom d = true) : d ≠ [] := by
  rintro rfl
  revert h
  decide

/-- Contracts are deployed one after the other, each for a denomination without a contract. -/
inductive Grows (env : Env) : Store → ℕ → Store → ℕ → Prop
  | refl (s : Store) (n : ℕ) : Grows env s n s n
  | deploy {s s' : Store} {n n' : ℕ} {d : Denom} (hvalid : isValidCoinDenom d = true)
      (hnone : s.getContractByDenom d = none) (hn : n+1 < 2^64)
      (rest : Grows env (s.setAutoContractForDenom d (env.createAddress n)) (n+1) s' n') :
      Grows env s n s' n'

namespace Grows

variable {env : Env} {s s' s'' : Store} {n n' n'' : ℕ}

theorem trans (h : Grows env s n s' n') (h' : Grows env s' n' s'' n'') : Grows env s n s'' n'' := by
  induction h with
  | refl => exact h'
  | deploy hvalid hnone hn _ ih => exact .deploy hvalid hnone hn (ih h')

theorem le (h : Grows env s n s' n') : n ≤ n' ∧ (n < n' → n' < 2^64) := by
  induction h with
  | refl => exact ⟨le_rfl,fun h => absurd h (lt_irrefl _)⟩
  | @deploy s s' n n' d _ _ hn _ ih =>
    obtain ⟨hle,hlt⟩ := ih
    refine ⟨by omega,fun _ => ?_⟩
    rcases Nat.lt_or_ge (n+1) n' with h | h
    · exact hlt h
    · omega

theorem keeps (h : Grows env s n s' n') : s'.external = s.external ∧ s'.getParams = s.getParams ∧
    ∀ d a, s.getAutoContractByDenom d = some a → s'.getAutoContractByDenom d = some a := by
  induction h with
  | refl => exact ⟨rfl,rfl,fun _ _ h => h⟩
  | @deploy s s' n n' d _ hnone _ _ ih =>
    obtain ⟨hext,hparams,hauto⟩ := ih
    refine ⟨hext,hparams,fun e a he => hauto e a ?_⟩
    rw [Store.lookup_setAuto,if_neg]
    · exact he
    · rintro rfl
      simp [(Store.getContractByDenom_eq_none.mp hnone).2] at he

/-- Every address between the nonces is recorded for a denomination that had no contract. -/
theorem deployed (h : Grows env s n s' n') {k : ℕ} (hk : n ≤ k) (hk' : k < n') : ∃ d,
    s.getContractByDenom d = none ∧ s'.getAutoContractByDenom d = some (env.createAddress k) := by
  induction h with
  | refl => omega
  | @deploy s s' n n' d _ hnone _ rest ih =>
    rcases Nat.lt_or_ge n k with hlt | hge
    · obtain ⟨e,he,hauto⟩ := ih (by omega) hk'
      refine ⟨e,?_,hauto⟩
      rw [Store.getContractByDenom_eq_none] at he ⊢
      rw [Store.lookup_setAuto] at he
      split_ifs at he with hde
      · simp at he
      · exact he
    · obtain rfl : k = n := by omega
      exact ⟨d,hnone,rest.keeps.2.2 d _ (by simp [Store.lookup_setAuto])⟩

variable (hinj : Set.InjOn env.createAddress (Set.Iio (2^64)))
include hinj

/-- New contracts at addresses that are not registered keep the mapping consistent. -/
theorem inv (h : Grows env s n s' n') (hs : s.Inv)
    (hfresh : ∀ k, n ≤ k → k < n' → s.getDenomByContract (env.createAddress k) = none) : s'.Inv := by
  induction h with
  | refl => exact hs
  | @deploy s s' n n' d hvalid hnone hn rest ih =>
    obtain ⟨hle,hlt⟩ := rest.le
    refine ih (hs.setAuto (ne_nil_of_valid hvalid) (Store.getContractByDenom_eq_none.mp hnone).2
      (hfresh n le_rfl (by omega))) ?_
    intro k hk hk'
    have hne : env.createAddress k ≠ env.createAddress n := by
      intro heq
      have hlt := hlt (by omega)
      have := hinj (show k < 2^64 by omega) (show n < 2^64 by omega) heq
      omega
    rw [Store.getDenomByContract_setAuto_of_ne s d hne]
    exact hfresh k (by omega) hk'

omit hinj in
theorem fresh_of_inv (h : Grows env s n s' n') (hs : s.Inv) (hs' : s'.Inv) {k : ℕ} (hk : n ≤ k)
    (hk' : k < n') : s.getDenomByContract (env.createAddress k) = none := by
  obtain ⟨d,hnone,hauto⟩ := h.deployed hk hk'
  refine eq_none_iff_forall_ne_some.mpr fun e he => ?_
  obtain ⟨hext,-,hkeep⟩ := h.keeps
  have hde : s'.getDenomByContract (env.createAddress k) = some d :=
    (hs'.consistent _ d).mpr (.inr hauto)
  have hrec := (hs.consistent _ e).mp he
  have hee : s'.getDenomByContract (env.createAddress k) = some e := by
    refine (hs'.consistent _ e).mpr (hrec.imp (fun h => ?_) (hkeep e _))
    rwa [Store.getExternalContractByDenom,hext]
  obtain rfl : d = e := some.inj (hde.symm.trans hee)
  obtain ⟨h1,h2⟩ := Store.getContractByDenom_eq_none.mp hnone
  rw [h1,h2] at hrec
  simp at hrec

end Grows

namespace World

variable {env : Env} {w w' : World}

def Kept (w w' : World) : Prop := w'.store = w.store ∧ w'.nonce = w.nonce

/-- Nothing but deployments happened to the store. -/
def Grown (env : Env) (w w' : World) : Prop := Grows env w.store w.nonce w'.store w'.nonce

theorem Kept.grown (h : Kept w w') : Grown env w w' := by
  obtain ⟨hs,hn⟩ := h
  rw [Grown,hs,hn]
  exact .refl ..

theorem Kept.trans {w'' : World} (h : Kept w w') (h' : Kept w' w'') : Kept w w'' :=
  ⟨h'.1.trans h.1,h'.2.trans h.2⟩

theorem kept_callModuleCRC21 {contract : Address} {call : TokenCall}
    (h : w.callModuleCRC21 env contract call = .ok w') : Kept w w' := by
  obtain ⟨tokens,rfl,-⟩ := callModuleCRC21_ok h
  exact ⟨rfl,rfl⟩

theorem kept_transfer {t : Transfer} (h : w.transfer env t = .ok w') : Kept w w' := by
  obtain ⟨-,b,-,rfl⟩ := transfer_ok h
  exact ⟨rfl,rfl⟩

variable {destination : Bytes} {channelId : Option ℕ} {c : Coin}

theorem kept_ibcTransferCoin {acc : Address}
    (h : ibcTransferCoin env acc destination channelId w c = .ok w') : Kept w w' := by
  obtain ⟨-,-,rfl⟩ | ⟨-,-,-,b₁,b₂,b₃,-,-,-,channel,h⟩ | ⟨-,-,channel,h⟩ := ibcTransferCoin_ok h
  · exact ⟨rfl,rfl⟩
  · exact (kept_transfer h :)
  · exact (kept_transfer h :)

theorem kept_ibcTransferCoins {source : Bytes} {coins : List Coin}
    (h : w.ibcTransferCoins env source destination coins channelId = .ok w') : Kept w w' := by
  obtain ⟨acc,-,h⟩ := ibcTransferCoins_ok h
  exact foldlM_invariant h ⟨rfl,rfl⟩ fun c u v hu hv => hu.trans (kept_ibcTransferCoin hv)

theorem kept_sentOn {sender : Address} (h : SentOn env sender destination channelId c w w') :
    Kept w w' := by
  rcases h with ⟨-,rfl⟩ | h
  · exact ⟨rfl,rfl⟩
  · exact kept_ibcTransferCoin h

theorem kept_convertCoinFromCRC21ToNative {contract receiver : Address} {amount : ℕ}
    (h : w.convertCoinFromCRC21ToNative env contract receiver amount = .ok w') : Kept w w' := by
  obtain ⟨denom,-,⟨-,w₁,b₁,b,hcall,-,-,rfl⟩ | ⟨-,b,-,hcall⟩⟩ := convertCoinFromCRC21ToNative_ok h
  · exact (kept_callModuleCRC21 hcall :)
  · exact (kept_callModuleCRC21 hcall :)

theorem kept_handle {log : Log} (h : w.handle env log = .ok w') : Kept w w' := by
  obtain ⟨address,event⟩ := log
  cases event with
  | sendToAccount recipient amount =>
    obtain ⟨denom,b,-,-,rfl⟩ := handleSendToAccount_ok h
    exact ⟨rfl,rfl⟩
  | sendToIbc sender recipient amount | sendToIbcV2 sender channelId recipient amount extraData =>
    obtain ⟨denom,b,-,-,-,h⟩ := handleSendToIbc_ok h
    exact (kept_sentOn h :)
  | sendCroToIbc sender recipient amount =>
    obtain ⟨b,-,h⟩ := handleSendCroToIbc_ok h
    exact (kept_sentOn h :)
  | _ =>
    cases h
    exact ⟨rfl,rfl⟩

theorem kept_postTxProcessing {logs : List Log} (h : w.postTxProcessing env logs = .ok w') :
    Kept w w' := by
  refine foldlM_invariant h ⟨rfl,rfl⟩ fun log u v hu hv => hu.trans ?_
  unfold postLog at hv
  split_ifs at hv
  · exact kept_handle hv
  · cases hv
    exact ⟨rfl,rfl⟩

theorem kept_txStep {p p' : World × List Log} {t : TxStep} (h : txStep env p t = .ok p') :
    Kept p.1 p'.1 := by
  cases t with
  | call sender contract call =>
    simp only [txStep] at h
    split at h
    · cases h
    · split_ifs at h
      split at h
      · cases h
      · cases h
        exact ⟨rfl,rfl⟩
  | log contract event | create sender contract denom decimals isSource =>
    simp only [txStep] at h
    rw [ite_error_eq_ok] at h
    cases h.2
    exact ⟨rfl,rfl⟩

theorem kept_ethereumTx {steps : List TxStep} (h : w.ethereumTx env steps = .ok w') : Kept w w' := by
  obtain ⟨⟨w₁,logs⟩,h₁,h⟩ := bind_eq_ok.mp h
  have hkept : Kept w w₁ := foldlM_invariant (I := fun p : World × List Log => Kept w p.1) h₁
    ⟨rfl,rfl⟩ fun t p q hp hq => hp.trans (kept_txStep hq)
  exact hkept.trans (kept_postTxProcessing h)

theorem grown_convertCoinFromNativeToCRC21 {sender : Address} {coin : Coin} {autoDeploy : Bool}
    (h : w.convertCoinFromNativeToCRC21 env sender coin autoDeploy = .ok w') : Grown env w w' := by
  obtain ⟨hvalid,contract,w₁,b,hfind,hrest⟩ := convertCoinFromNativeToCRC21_ok h
  have hgrown : Grown env w w₁ := by
    obtain ⟨-,rfl⟩ | ⟨hnone,-,-,hn,rfl⟩ := findContract_ok hfind
    · exact .refl ..
    · exact .deploy hvalid hnone hn (.refl ..)
  have hkept : Kept w₁ w' := by
    obtain ⟨-,-,hcall⟩ | ⟨-,-,hcall⟩ := hrest
    · exact (kept_callModuleCRC21 hcall :)
    · exact (kept_callModuleCRC21 hcall :)
  exact Grows.trans hgrown hkept.grown

theorem grown_convertVoucher {acc : Address} (h : convertVoucher env acc w c = .ok w') :
    Grown env w w' := by
  obtain ⟨-,-,b₁,b₂,b₃,-,-,-,rfl⟩ | ⟨-,autoDeploy,h⟩ := convertVoucher_ok h
  · exact .refl ..
  · exact grown_convertCoinFromNativeToCRC21 h

theorem grown_convertVouchersToEvmCoins {source : Bytes} {coins : List Coin}
    (h : w.convertVouchersToEvmCoins env source coins = .ok w') : Grown env w w' := by
  obtain ⟨acc,-,h⟩ := convertVouchersToEvmCoins_ok h
  exact foldlM_invariant (I := Grown env w) h (.refl ..) fun c u v hu hv =>
    Grows.trans hu (grown_convertVoucher hv)

theorem grown_receivePacket {receiver : Address} {c : Credit}
    (h : w.receivePacket env receiver c = .ok w') : Grown env w w' := by
  obtain ⟨w₁,hcredit,hrest⟩ := receivePacket_ok h
  obtain ⟨-,b,rfl,-⟩ := credit_ok hcredit
  rcases hrest with rfl | h
  · exact .refl ..
  · exact (grown_convertVoucher h :)

/-- An update by message or proposal, or a change that leaves the mapping alone. -/
def Remapped (s s' : Store) : Prop :=
  (∃ d a, isValidCoinDenom d = true ∧ s.setExternalContractForDenom d a = .ok s') ∨
  (∃ d, isValidCoinDenom d = true ∧ s' = s.deleteExternalContractForDenom d) ∨
  s'.external = s.external ∧ s'.auto = s.auto ∧ s'.denoms = s.denoms

theorem remapped_register {msg : MsgUpdateTokenMapping} (hvalid : isValidCoinDenom msg.denom = true)
    (h : w.registerOrUpdateTokenMapping env msg = .ok w') :
    w'.nonce = w.nonce ∧ Remapped w.store w'.store := by
  obtain ⟨metadata,s,rfl,⟨a,hset⟩ | hdelete⟩ := registerOrUpdateTokenMapping_ok h
  · exact ⟨rfl,.inl ⟨msg.denom,a,hvalid,hset⟩⟩
  · exact ⟨rfl,.inr (.inl ⟨msg.denom,hvalid,hdelete⟩)⟩

theorem apply_cases {op : Op} (h : w.apply env op = .ok w') :
    Grown env w w' ∨ w'.nonce = w.nonce ∧ Remapped w.store w'.store := by
  cases op with
  | updateTokenMapping msg =>
    obtain ⟨hvalid,h⟩ := updateTokenMapping_ok h
    exact .inr (remapped_register hvalid h)
  | tokenMappingChange p =>
    obtain ⟨msg,hvalid,h⟩ := tokenMappingChange_ok h
    exact .inr (remapped_register hvalid h)
  | updateParams authority params =>
    obtain ⟨-,rfl⟩ := updateParams_ok h
    exact .inr ⟨rfl,.inr (.inr ⟨rfl,rfl,rfl⟩)⟩
  | updatePermissions source address permissions =>
    obtain ⟨ps,rfl⟩ := updatePermissions_ok h
    exact .inr ⟨rfl,.inr (.inr ⟨rfl,rfl,rfl⟩)⟩
  | convertVouchersToEvmCoins source coins => exact .inl (grown_convertVouchersToEvmCoins h)
  | onRecvVouchers tokens receiver =>
    rcases onRecvVouchers_ok h with h | rfl
    · exact .inl (grown_convertVouchersToEvmCoins h)
    · exact .inl (.refl ..)
  | ibcTransferCoins source destination coins channelId => exact .inl (kept_ibcTransferCoins h).grown
  | convertCoinFromNativeToCRC21 sender coin autoDeploy =>
    exact .inl (grown_convertCoinFromNativeToCRC21 h)
  | convertCoinFromCRC21ToNative contract receiver amount =>
    exact .inl (kept_convertCoinFromCRC21ToNative h).grown
  | ethereumTx steps => exact .inl (kept_ethereumTx h).grown
  | receivePacket receiver c => exact .inl (grown_receivePacket h)

end World

namespace Store

variable {env : Env} {s s' : Store} {m : TokenMapping}

def TokenMapping.address (m : TokenMapping) : Address := hexToAddress m.contract

theorem checkMapping_ok {a : Address} (h : checkMapping m = .ok a) :
    a = m.address ∧ isValidCoinDenom m.denom = true := by
  unfold checkMapping at h
  rw [ite_error_eq_ok,ite_error_eq_ok] at h
  obtain ⟨hkind,-,h⟩ := h
  refine ⟨(Except.ok.inj h).symm,?_⟩
  simp only [Bool.and_eq_true,Bool.not_eq_true'] at hkind
  simp only [isValidCoinDenom,Bool.or_eq_true]
  by_contra hnone
  simp_all

/-- The contracts of genesis that count as deployed by the module are given once each, and not as
external ones. -/
structure GenesisState.Separate (g : GenesisState) : Prop where
  denoms : (g.autoContracts.map TokenMapping.denom).Nodup
  contracts : (g.autoContracts.map TokenMapping.address).Nodup
  external : ∀ m ∈ g.autoContracts, ∀ m' ∈ g.externalContracts, m'.address ≠ m.address

/-- The state while the external contracts are read: what is recorded comes from the list. -/
structure Reading (l : List TokenMapping) (s : Store) : Prop where
  inv : s.Inv
  auto : s.auto = ∅
  known : ∀ a d, s.denoms.lookup a = some d → ∃ m ∈ l, m.address = a

theorem Reading.initExternal {l : List TokenMapping} (hs : Reading l s) (hm : m ∈ l)
    (h : s.initExternal m = .ok s') : Reading l s' := by
  obtain ⟨a,ha,h⟩ := bind_eq_ok.mp h
  obtain ⟨rfl,hvalid⟩ := checkMapping_ok ha
  obtain ⟨-,-,hauto,hdenoms⟩ := setExternal_ok h
  refine ⟨hs.inv.setExternal (ne_nil_of_valid hvalid) h,hauto.trans hs.auto,fun x d hx => ?_⟩
  rw [hdenoms] at hx
  split_ifs at hx with hxm
  · exact ⟨m,hm,hxm.symm⟩
  · exact hs.known x d hx

/-- The state while the other contracts are read: those still to come are new. -/
structure Pending (l : List TokenMapping) (s : Store) : Prop where
  inv : s.Inv
  denoms : (l.map TokenMapping.denom).Nodup
  contracts : (l.map TokenMapping.address).Nodup
  fresh : ∀ m ∈ l, s.getDenomByContract m.address = none ∧ s.getAutoContractByDenom m.denom = none

theorem Pending.initAuto {l : List TokenMapping} (hs : Pending (m :: l) s)
    (h : s.initAuto m = .ok s') : Pending l s' := by
  obtain ⟨a,ha,h⟩ := bind_eq_ok.mp h
  obtain ⟨rfl,hvalid⟩ := checkMapping_ok ha
  cases h
  obtain ⟨hinv,hdenoms,hcontracts,hfresh⟩ := hs
  rw [List.map_cons,List.nodup_cons] at hdenoms hcontracts
  obtain ⟨hd,ha⟩ := hfresh m (by simp)
  refine ⟨hinv.setAuto (ne_nil_of_valid hvalid) ha hd,hdenoms.2,hcontracts.2,fun m' hm' => ?_⟩
  obtain ⟨hd',ha'⟩ := hfresh m' (by simp [hm'])
  constructor
  · rwa [getDenomByContract_setAuto_of_ne]
    intro heq
    exact hcontracts.1 (heq ▸ List.mem_map_of_mem hm')
  · rw [lookup_setAuto,if_neg]
    · exact ha'
    · intro heq
      exact hdenoms.1 (heq ▸ List.mem_map_of_mem hm')

theorem inv_initGenesis {g : GenesisState} (hg : g.Separate) (h : initGenesis env {} g = .ok s) :
    s.Inv := by
  obtain ⟨s₀,h₀,hrest⟩ := bind_eq_ok.mp h
  obtain ⟨s₁,h₁,h₂⟩ := bind_eq_ok.mp hrest
  unfold setParams at h₀
  rw [ite_ok_error] at h₀
  obtain ⟨-,rfl⟩ := h₀
  have hread : Reading g.externalContracts s₁ := by
    refine (foldlM_rest (I := fun l s => l ⊆ g.externalContracts ∧ Reading g.externalContracts s) h₁
      ⟨List.Subset.refl _,inv_empty ..,rfl,by simp⟩ ?_).2
    rintro m l s t ⟨hsub,hs⟩ ht
    exact ⟨fun x hx => hsub (List.mem_cons_of_mem m hx),hs.initExternal (hsub (by simp)) ht⟩
  have hpending : Pending g.autoContracts s₁ := by
    refine ⟨hread.inv,hg.denoms,hg.contracts,fun m hm => ⟨?_,?_⟩⟩
    · refine eq_none_iff_forall_ne_some.mpr fun d hd => ?_
      obtain ⟨m',hm',heq⟩ := hread.known _ d (getDenomByContract_eq.mp hd).1
      exact hg.external m hm m' hm' heq
    · simp [getAutoContractByDenom,hread.auto]
  exact (foldlM_rest (I := Pending) h₂ hpending fun m l s t hs ht => hs.initAuto ht).inv

theorem Inv.remapped (hs : s.Inv) (h : World.Remapped s s') : s'.Inv := by
  obtain ⟨d,a,hvalid,h⟩ | ⟨d,-,rfl⟩ | ⟨hext,hauto,hdenoms⟩ := h
  · exact hs.setExternal (ne_nil_of_valid hvalid) h
  · exact hs.delete d
  · refine ⟨fun a d => ?_,fun d a => ?_⟩
    · simpa only [getDenomByContract,getExternalContractByDenom,getAutoContractByDenom,hext,hauto,
        hdenoms] using hs.consistent a d
    · simpa only [getExternalContractByDenom,getAutoContractByDenom,hext,hauto] using hs.separate d a

end Store

namespace World

/-- No contract that the operation deploys has an address that is registered already. -/
def Fresh (env : Env) (w : World) (op : Op) : Prop := ∀ w', w.step env op = some w' →
  ∀ k, w.nonce ≤ k → k < w'.nonce → w.store.getDenomByContract (env.createAddress k) = none

section
variable {env : Env} (hinj : Set.InjOn env.createAddress (Set.Iio (2^64))) {w w' : World} {op : Op}
include hinj

/-- An operation keeps the mapping consistent exactly if its new contracts are not registered. -/
theorem inv_step_iff (hw : w.store.Inv) (h : w.step env op = some w') :
    w'.store.Inv ↔ w.Fresh env op := by
  have happly := step_eq_some.mp h
  constructor
  · intro hw' u hu k hk hk'
    obtain rfl := some.inj (h.symm.trans hu)
    obtain hgrown | ⟨hn,-⟩ := apply_cases happly
    · exact hgrown.fresh_of_inv hw hw' hk hk'
    · omega
  · intro hfresh
    obtain hgrown | ⟨-,hre⟩ := apply_cases happly
    · exact hgrown.inv hinj hw fun k hk hk' => hfresh w' h k hk hk'
    · exact hw.remapped hre

/-- In a run whose new contracts are never registered before, contract and denomination find each
other. -/
theorem mapping_consistent {g : Store.GenesisState} {w₀ : World}
    (hgenesis : Store.initGenesis env {} g = .ok w₀.store) (hg : g.Separate)
    (hrun : Transition.Run (step env) (Fresh env) w₀ w) :
    w.store.Consistent ∧
    (∀ d d' a, w.store.getExternalContractByDenom d = some a ∨ w.store.getAutoContractByDenom d = some a →
      w.store.getExternalContractByDenom d' = some a ∨ w.store.getAutoContractByDenom d' = some a →
      d = d') ∧
    (∀ d a, w.store.getContractByDenom d = some a → w.store.getDenomByContract a = some d) ∧
    ∀ op w', w.step env op = some w' → (w'.store.Inv ↔ w.Fresh env op) := by
  have hinv : w.store.Inv := hrun.invariant (I := fun w => w.store.Inv)
    (Store.inv_initGenesis hg hgenesis) fun w op w' hw hop h => (inv_step_iff hinj hw h).mpr hop
  refine ⟨hinv.consistent,fun d d' a hd hd' => ?_,fun d a h => hinv.consistent.getDenomByContract h,
    fun op w' h => inv_step_iff hinj hinv h⟩
  have h := ((hinv.consistent a d).mpr hd).symm.trans ((hinv.consistent a d').mpr hd')
  exact some.inj h

end

open Sample in
theorem mapping_consistent_deploy : ∃ w, Transition.Run (step env) (Fresh env) world w ∧ w.nonce = 1 ∧
    w.store.Consistent := by
  have hstep : (world.step env (.convertCoinFromNativeToCRC21 (address 9) ⟨ibcDenom 66,5⟩ true)).any
      (fun w => w.nonce = 1) = true := by
    decide +kernel
  obtain ⟨w,hw,hn⟩ := (Option.any_eq_true ..).mp hstep
  have hfresh : world.Fresh env (.convertCoinFromNativeToCRC21 (address 9) ⟨ibcDenom 66,5⟩ true) :=
    fun _ _ _ _ _ => by simp [world,Store.getDenomByContract]
  have hrun : Transition.Run (step env) (Fresh env) world w := .single ⟨_,hfresh,hw⟩
  refine ⟨w,hrun,of_decide_eq_true hn,?_⟩
  have hgenesis : Store.initGenesis env {} { params := params } = .ok world.store := by rfl
  exact (mapping_consistent injOn_created hgenesis ⟨by simp,by simp,by simp⟩ hrun).1

open Sample in
/-- A contract that is registered before the module deploys at its address has two denominations. -/
theorem mapping_two_denoms : ∃ w₁ w,
    world.step env (.tokenMappingChange ⟨ibcDenom 65,(created 0).hex env.checksum,[],0⟩) = some w₁ ∧
    w₁.step env (.convertCoinFromNativeToCRC21 (address 9) ⟨ibcDenom 66,5⟩ true) = some w ∧
    w.store.getExternalContractByDenom (ibcDenom 65) = some (created 0) ∧
    w.store.getAutoContractByDenom (ibcDenom 66) = some (created 0) ∧
    w.store.getDenomByContract (created 0) = some (ibcDenom 66) := by
  have hrun : ((world.step env
      (.tokenMappingChange ⟨ibcDenom 65,(created 0).hex env.checksum,[],0⟩)).bind fun w =>
      w.step env (.convertCoinFromNativeToCRC21 (address 9) ⟨ibcDenom 66,5⟩ true)).any
      (fun w => w.store.getExternalContractByDenom (ibcDenom 65) = some (created 0) ∧
        w.store.getAutoContractByDenom (ibcDenom 66) = some (created 0) ∧
        w.store.getDenomByContract (created 0) = some (ibcDenom 66)) = true := by
    decide +kernel
  obtain ⟨w,hw,h⟩ := (Option.any_eq_true ..).mp hrun
  obtain ⟨w₁,hw₁,hw⟩ := bind_eq_some_iff.mp hw
  exact ⟨w₁,w,hw₁,hw,of_decide_eq_true h⟩

end World

end Cronos
