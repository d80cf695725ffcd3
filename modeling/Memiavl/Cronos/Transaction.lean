import Memiavl.Cronos.Mapping

/-! What a call can do to a contract, and how an invariant is carried through a transaction: its
steps collect logs, and the hooks pay for them afterwards. -/
namespace Cronos

open Fallible Option

/-- What the handlers take from the contract of an event. -/
def Event.release : Event → ℕ
  | .sendToAccount _ amount | .sendToIbc _ _ amount | .sendCroToIbc _ _ amount
  | .sendToIbcV2 _ _ _ amount _ => amount
  | .sendToEvmChain .. | .cancelSendToEvmChain .. | .malformed | .other => 0

namespace Token

variable {t t' : Token} {moduleAddress sender src dst guy addr : Address} {wad amount : ℕ}

structure SameKind (t t' : Token) : Prop where
  owner : t'.owner = t.owner
  isSource : t'.isSource = t.isSource

theorem SameKind.refl (t : Token) : SameKind t t := ⟨rfl,rfl⟩

theorem SameKind.trans {t'' : Token} (h : SameKind t t') (h' : SameKind t' t'') : SameKind t t'' :=
  ⟨h'.owner.trans h.owner,h'.isSource.trans h.isSource⟩

theorem balanceOf_setBalance (t : Token) (x : Address) (n : ℕ) (a : Address) :
    (t.setBalance x n).balanceOf a = if a = x then n else t.balanceOf a := by
  by_cases ha : a = x <;> simp [setBalance,ha]

theorem dsAdd_eq_some {x y z : ℕ} : dsAdd x y = some z ↔ x+y < uintSize ∧ z = x+y := by
  unfold dsAdd
  split_ifs with h <;> simp [h,eq_comm]

/-- Approvals are only used up. -/
structure AllowanceUsed (sender src : Address) (wad : ℕ) (t t' : Token) : Prop where
  kind : SameKind t t'
  totalSupply : t'.totalSupply = t.totalSupply
  balanceOf : t'.balanceOf = t.balanceOf
  enough : src = sender ∨ t.allowance src sender = uintSize-1 ∨ wad ≤ t.allowance src sender
  allowance : ∀ a b, t'.allowance a b ≤ t.allowance a b

theorem useAllowance_ok (h : t.useAllowance sender src wad = some t') :
    AllowanceUsed sender src wad t t' := by
  unfold useAllowance at h
  split_ifs at h with hlimited henough
  · cases h
    refine ⟨⟨rfl,rfl⟩,rfl,rfl,.inr (.inr henough),fun a b => ?_⟩
    by_cases ha : a = src
    · subst ha
      by_cases hb : b = sender
      · subst hb
        simp [setAllowance]
      · simp [setAllowance,hb]
    · simp [setAllowance,ha]
  · cases h
    refine ⟨.refl _,rfl,rfl,?_,fun _ _ => le_rfl⟩
    tauto

structure Transferred (src dst : Address) (amount : ℕ) (t t' : Token) : Prop where
  kind : SameKind t t'
  totalSupply : t'.totalSupply = t.totalSupply
  allowance : ∀ a b, t'.allowance a b ≤ t.allowance a b
  balanceOf : ∀ a, t'.balanceOf a+(if a = src then amount else 0) =
    t.balanceOf a+(if a = dst then amount else 0)

theorem unsafeTransfer_ok (h : t.unsafeTransfer src dst amount = some t') :
    Transferred src dst amount t t' := by
  unfold unsafeTransfer at h
  split_ifs at h with hle
  obtain ⟨n,hn,rfl⟩ := map_eq_some_iff.mp h
  obtain ⟨-,rfl⟩ := dsAdd_eq_some.mp hn
  refine ⟨⟨rfl,rfl⟩,rfl,fun _ _ => le_rfl,fun a => ?_⟩
  simp only [balanceOf_setBalance]
  by_cases hs : a = src <;> by_cases hd : a = dst
  · subst hs hd
    simp only [if_true]
    omega
  · subst hs
    simp only [hd,if_true,if_false]
    omega
  · subst hd
    simp only [hs,if_true,if_false]
    omega
  · simp [hs,hd]

theorem transferFrom_ok (h : t.transferFrom sender src dst wad = some t') :
    Transferred src dst wad t t' ∧
      (src = sender ∨ t.allowance src sender = uintSize-1 ∨ wad ≤ t.allowance src sender) := by
  unfold transferFrom at h
  split_ifs at h
  obtain ⟨t₁,h₁,h⟩ := bind_eq_some_iff.mp h
  have hused := useAllowance_ok h₁
  have hmoved := unsafeTransfer_ok h
  refine ⟨⟨hused.kind.trans hmoved.kind,hmoved.totalSupply.trans hused.totalSupply,
    fun a b => (hmoved.allowance a b).trans (hused.allowance a b),fun a => ?_⟩,hused.enough⟩
  rw [hmoved.balanceOf,hused.balanceOf]

structure Reduced (addr : Address) (amount : ℕ) (t t' : Token) : Prop where
  kind : SameKind t t'
  totalSupply : t'.totalSupply+amount = t.totalSupply
  allowance : ∀ a b, t'.allowance a b ≤ t.allowance a b
  balanceOf : ∀ a, t'.balanceOf a+(if a = addr then amount else 0) = t.balanceOf a

theorem unsafeBurn_ok (h : t.unsafeBurn addr amount = some t') : Reduced addr amount t t' := by
  unfold unsafeBurn at h
  split_ifs at h with hle
  cases h
  refine ⟨⟨rfl,rfl⟩,Nat.sub_add_cancel hle.2,fun _ _ => le_rfl,fun a => ?_⟩
  change (t.setBalance addr _).balanceOf a+_ = _
  rw [balanceOf_setBalance]
  split_ifs with ha
  · subst ha
    omega
  · rfl

theorem burn_ok (h : t.burn sender guy wad = some t') : sender = t.owner ∧ Reduced guy wad t t' ∧
    (guy = sender ∨ t.allowance guy sender = uintSize-1 ∨ wad ≤ t.allowance guy sender) := by
  unfold burn at h
  split_ifs at h with hauth
  simp only [Bool.or_eq_true,Bool.not_eq_true',isAuthorized,not_or] at hauth
  obtain ⟨t₁,h₁,h⟩ := bind_eq_some_iff.mp h
  have hused := useAllowance_ok h₁
  have hburned := unsafeBurn_ok h
  refine ⟨by simpa using hauth.1,⟨hused.kind.trans hburned.kind,?_,fun a b => ?_,fun a => ?_⟩,
    hused.enough⟩
  · rw [hburned.totalSupply,hused.totalSupply]
  · exact (hburned.allowance a b).trans (hused.allowance a b)
  · rw [hburned.balanceOf,hused.balanceOf]

structure Increased (guy : Address) (wad : ℕ) (t t' : Token) : Prop where
  kind : SameKind t t'
  totalSupply : t'.totalSupply = t.totalSupply+wad
  allowance : t'.allowance = t.allowance
  balanceOf : ∀ a, t'.balanceOf a = t.balanceOf a+(if a = guy then wad else 0)

theorem mint_ok (h : t.mint sender guy wad = some t') : sender = t.owner ∧ Increased guy wad t t' := by
  unfold mint at h
  split_ifs at h with hauth
  simp only [Bool.or_eq_true,Bool.not_eq_true',isAuthorized,not_or] at hauth
  obtain ⟨balance,hbalance,h⟩ := bind_eq_some_iff.mp h
  obtain ⟨total,htotal,h⟩ := bind_eq_some_iff.mp h
  obtain ⟨-,rfl⟩ := dsAdd_eq_some.mp hbalance
  obtain ⟨-,rfl⟩ := dsAdd_eq_some.mp htotal
  cases h
  refine ⟨by simpa using hauth.1,⟨rfl,rfl⟩,rfl,rfl,fun a => ?_⟩
  change (t.setBalance guy _).balanceOf a = _
  rw [balanceOf_setBalance]
  split_ifs with ha
  · rw [ha]
  · rfl

variable {call : TokenCall} {events : List Event}

theorem return_eq_some {x : Option Token} {e : List Event} :
    (do return (← x,e)) = some (t',events) ↔ x = some t' ∧ events = e := by
  cases x <;> simp [eq_comm]

/-- Whoever is neither the owner nor the module can only lower the supply, by at least what the
events release. -/
theorem exec_supply (howner : sender ≠ t.owner) (hmodule : sender ≠ moduleAddress)
    (hsource : t.isSource = false) (h : t.exec moduleAddress sender call = some (t',events)) :
    SameKind t t' ∧ t'.totalSupply+(events.map Event.release).sum ≤ t.totalSupply := by
  have hauth : t.isAuthorized sender = false := by simp [isAuthorized,howner]
  cases call with
  | approve guy wad =>
    obtain ⟨hcall,rfl⟩ := return_eq_some.mp h
    unfold approve at hcall
    split_ifs at hcall
    cases hcall
    exact ⟨⟨rfl,rfl⟩,le_rfl⟩
  | transferFrom src dst wad
  | transferFromCronosModule addr amount =>
    obtain ⟨hcall,rfl⟩ := return_eq_some.mp h
    have hmoved := (transferFrom_ok hcall).1
    exact ⟨hmoved.kind,by simp [Event.release,hmoved.totalSupply]⟩
  | mint guy wad =>
    obtain ⟨hcall,rfl⟩ := return_eq_some.mp h
    exact absurd (mint_ok hcall).1 howner
  | burn guy wad =>
    obtain ⟨hcall,rfl⟩ := return_eq_some.mp h
    exact absurd (burn_ok hcall).1 howner
  | stop | start | setOwner owner => simp [exec,hauth] at h
  | mintByCronosModule addr amount
  | burnByCronosModule addr amount
  | transferByCronosModule addr amount => simp [exec,hmodule] at h
  | sendToIbc recipient amount channelId extraData =>
    obtain ⟨hcall,rfl⟩ := return_eq_some.mp h
    rw [giveUp,hsource,if_neg Bool.false_ne_true] at hcall
    have hburned := unsafeBurn_ok hcall
    exact ⟨hburned.kind,by simp [Event.release,← hburned.totalSupply]⟩
  | sendToEvmChain recipient amount chainId bridgeFee extraData =>
    obtain ⟨total,-,hrest⟩ := bind_eq_some_iff.mp h
    obtain ⟨hcall,rfl⟩ := return_eq_some.mp hrest
    rw [giveUp,hsource,if_neg Bool.false_ne_true] at hcall
    have hburned := unsafeBurn_ok hcall
    exact ⟨hburned.kind,by simp [Event.release,← hburned.totalSupply]⟩
  | cancelSendToEvmChain id =>
    cases h
    exact ⟨.refl _,le_rfl⟩

/-- The contract is a source token, and the module has approved no one. -/
structure Locked (moduleAddress : Address) (t : Token) : Prop where
  isSource : t.isSource = true
  allowance : ∀ a, t.allowance moduleAddress a = 0

theorem Locked.of_le (h : t.Locked moduleAddress) (hkind : SameKind t t')
    (hle : ∀ a b, t'.allowance a b ≤ t.allowance a b) : t'.Locked moduleAddress :=
  ⟨hkind.isSource.trans h.isSource,fun a => Nat.le_zero.mp ((hle _ a).trans_eq (h.allowance a))⟩

section
variable (ht : t.Locked moduleAddress) (hmodule : sender ≠ moduleAddress)
include ht hmodule

/-- Without an approval nothing can be taken from the module. -/
theorem Locked.eq_zero {wad : ℕ}
    (h : moduleAddress = sender ∨ t.allowance moduleAddress sender = uintSize-1 ∨ wad ≤ t.allowance moduleAddress sender) :
    wad = 0 := by
  rw [ht.allowance] at h
  obtain h | h | h := h
  · exact absurd h.symm hmodule
  · norm_num [uintSize] at h
  · exact Nat.le_zero.mp h

theorem Locked.transferFrom {src dst : Address} {wad : ℕ}
    (h : t.transferFrom sender src dst wad = some t') :
    t'.Locked moduleAddress ∧ t.balanceOf moduleAddress+(if moduleAddress = dst then wad else 0) ≤
      t'.balanceOf moduleAddress := by
  obtain ⟨hmoved,henough⟩ := transferFrom_ok h
  refine ⟨ht.of_le hmoved.kind hmoved.allowance,?_⟩
  have hbalance := hmoved.balanceOf moduleAddress
  by_cases hsrc : moduleAddress = src
  · subst hsrc
    obtain rfl := ht.eq_zero hmodule henough
    simp only [ite_self] at hbalance ⊢
    omega
  · rw [if_neg hsrc] at hbalance
    omega

/-- Nobody but the module lowers the balance of the module, and events that release coins raise it. -/
theorem exec_locked (h : t.exec moduleAddress sender call = some (t',events)) :
    t'.Locked moduleAddress ∧
      t.balanceOf moduleAddress+(events.map Event.release).sum ≤ t'.balanceOf moduleAddress := by
  have hsend : ∀ {amount : ℕ}, t.giveUp moduleAddress sender amount = some t' →
      t'.Locked moduleAddress ∧ t.balanceOf moduleAddress+amount ≤ t'.balanceOf moduleAddress := by
    intro amount h
    rw [giveUp,ht.isSource,if_pos rfl] at h
    simpa using ht.transferFrom hmodule h
  cases call with
  | approve guy wad =>
    obtain ⟨hcall,rfl⟩ := return_eq_some.mp h
    unfold approve at hcall
    split_ifs at hcall
    cases hcall
    exact ⟨⟨ht.isSource,fun a => by simpa [setAllowance,hmodule.symm] using ht.allowance a⟩,le_rfl⟩
  | transferFrom src dst wad
  | transferFromCronosModule addr amount =>
    obtain ⟨hcall,rfl⟩ := return_eq_some.mp h
    obtain ⟨ht',hle⟩ := ht.transferFrom hmodule hcall
    exact ⟨ht',by simpa [Event.release] using le_of_add_le_left hle⟩
  | mint guy wad =>
    obtain ⟨hcall,rfl⟩ := return_eq_some.mp h
    have hminted := (mint_ok hcall).2
    refine ⟨ht.of_le hminted.kind fun a b => by rw [hminted.allowance],?_⟩
    simp [Event.release,hminted.balanceOf]
  | burn guy wad =>
    obtain ⟨hcall,rfl⟩ := return_eq_some.mp h
    obtain ⟨-,hburned,henough⟩ := burn_ok hcall
    refine ⟨ht.of_le hburned.kind hburned.allowance,?_⟩
    have hbalance := hburned.balanceOf moduleAddress
    by_cases hguy : moduleAddress = guy
    · subst hguy
      obtain rfl := ht.eq_zero hmodule henough
      simp only [ite_self] at hbalance
      simp [Event.release,← hbalance]
    · rw [if_neg hguy] at hbalance
      simp [Event.release,← hbalance]
  | stop | start | setOwner owner =>
    simp only [exec] at h
    split_ifs at h
    cases h
    exact ⟨⟨ht.isSource,ht.allowance⟩,le_rfl⟩
  | mintByCronosModule addr amount
  | burnByCronosModule addr amount
  | transferByCronosModule addr amount => simp [exec,hmodule] at h
  | sendToIbc recipient amount channelId extraData =>
    obtain ⟨hcall,rfl⟩ := return_eq_some.mp h
    simpa [Event.release] using hsend hcall
  | sendToEvmChain recipient amount chainId bridgeFee extraData =>
    obtain ⟨total,-,hrest⟩ := bind_eq_some_iff.mp h
    obtain ⟨hcall,rfl⟩ := return_eq_some.mp hrest
    obtain ⟨ht',hle⟩ := hsend hcall
    exact ⟨ht',by simpa [Event.release] using le_of_add_le_left hle⟩
  | cancelSendToEvmChain id =>
    cases h
    exact ⟨ht,le_rfl⟩

end

end Token

/-- What the handlers will take from a contract for a list of logs. -/
def owed (logs : List Log) (a : Address) : ℕ :=
  (logs.map fun log => if log.address = a then log.event.release else 0).sum

@[simp]
theorem owed_nil (a : Address) : owed [] a = 0 := rfl

@[simp]
theorem owed_cons (log : Log) (logs : List Log) (a : Address) :
    owed (log :: logs) a = (if log.address = a then log.event.release else 0)+owed logs a := rfl

@[simp]
theorem owed_append (logs logs' : List Log) (a : Address) :
    owed (logs ++ logs') a = owed logs a+owed logs' a := by
  simp [owed]

theorem owed_events (c : Address) (events : List Event) (a : Address) :
    owed (events.map fun event => ⟨c,event⟩) a = if c = a then (events.map Event.release).sum else 0 := by
  by_cases h : c = a <;> simp [owed,h,Function.comp_def]

namespace World

variable {env : Env} {w w' : World}

theorem txStep_call_ok {p p' : World × List Log} {sender contract : Address} {call : TokenCall}
    (h : txStep env p (.call sender contract call) = .ok p') : ∃ t t' events,
      sender ≠ env.evmModuleAddress ∧ p.1.tokens contract = some t ∧
      t.exec env.evmModuleAddress sender call = some (t',events) ∧
      p' = (p.1.setToken contract t',p.2 ++ events.map fun event => ⟨contract,event⟩) := by
  simp only [txStep] at h
  split at h
  · cases h
  · rename_i t ht
    split_ifs at h with hsender
    split at h
    · cases h
    · rename_i t' events hexec
      cases h
      exact ⟨t,t',events,hsender,ht,hexec,rfl⟩

/-- A step calls a contract, logs something for other code, or makes a contract. -/
theorem txStep_ok {p p' : World × List Log} {s : TxStep} (h : txStep env p s = .ok p') :
    (∃ sender contract call t t' events, s = .call sender contract call ∧
      sender ≠ env.evmModuleAddress ∧ p.1.tokens contract = some t ∧
      t.exec env.evmModuleAddress sender call = some (t',events) ∧
      p' = (p.1.setToken contract t',p.2 ++ events.map fun event => ⟨contract,event⟩)) ∨
    (∃ contract event, p.1.tokens contract = none ∧ p' = (p.1,p.2 ++ [⟨contract,event⟩])) ∨
    ∃ contract t, p.1.tokens contract = none ∧ p' = (p.1.setToken contract t,p.2) := by
  cases s with
  | call sender contract call =>
    obtain ⟨t,t',events,hcall⟩ := txStep_call_ok h
    exact .inl ⟨sender,contract,call,t,t',events,rfl,hcall⟩
  | log contract event =>
    simp only [txStep] at h
    rw [ite_error_eq_ok] at h
    exact .inr (.inl ⟨contract,event,by simpa using h.1,(Except.ok.inj h.2).symm⟩)
  | create sender contract denom decimals isSource =>
    simp only [txStep] at h
    rw [ite_error_eq_ok] at h
    obtain ⟨hfree,h⟩ := h
    simp only [Bool.or_eq_true,decide_eq_true_eq,not_or,not_isSome_iff_eq_none] at hfree
    exact .inr (.inr ⟨contract,_,hfree.1,(Except.ok.inj h).symm⟩)

/-- An invariant of a transaction speaks about the logs whose handlers are still to come. -/
theorem ethereumTx_rule {I : List Log → World → Prop} {steps : List TxStep}
    (h : w.ethereumTx env steps = .ok w') (hw : I [] w)
    (hcall : ∀ logs u sender contract call t t' events, I logs u → sender ≠ env.evmModuleAddress →
      u.tokens contract = some t → t.exec env.evmModuleAddress sender call = some (t',events) →
      I (logs ++ events.map fun event => ⟨contract,event⟩) (u.setToken contract t'))
    (hlog : ∀ logs u contract event, I logs u → u.tokens contract = none →
      I (logs ++ [⟨contract,event⟩]) u)
    (hcreate : ∀ logs u contract t, I logs u → u.tokens contract = none →
      I logs (u.setToken contract t))
    (hpost : ∀ log logs u v, I (log :: logs) u → u.postLog env log = .ok v → I logs v) : I [] w' := by
  obtain ⟨⟨w₁,logs⟩,h₁,h⟩ := bind_eq_ok.mp h
  have hsteps : I logs w₁ := by
    refine foldlM_invariant (I := fun p : World × List Log => I p.2 p.1) h₁ hw ?_
    intro s p q hp hq
    obtain ⟨sender,contract,call,t,t',events,-,hsender,ht,hexec,rfl⟩ | ⟨contract,event,ht,rfl⟩ |
      ⟨contract,t,ht,rfl⟩ := txStep_ok hq
    · exact hcall _ _ _ _ _ _ _ _ hp hsender ht hexec
    · exact hlog _ _ _ _ hp ht
    · exact hcreate _ _ _ _ hp ht
  exact foldlM_rest (I := I) h hsteps fun log logs u v hu hv => hpost log logs u v hu hv

end World

end Cronos
