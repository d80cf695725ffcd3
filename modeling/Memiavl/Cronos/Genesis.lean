import Memiavl.Cronos.Mapping
import Memiavl.Library.SortedEntries

/-! A store that is exported and read again. The denominations of the contracts are not exported:
reading builds them anew from the two lists of contracts. -/
namespace Cronos

open Fallible SortedEntries List Transition

namespace Store

variable {env : Env} {s s' : Store}

/-- The denominations that genesis accepts. -/
def genesisDenom (d : Denom) : Bool := isValidIBCDenom d || isValidGravityDenom d

def exported (env : Env) (e : Denom × Address) : TokenMapping := ⟨e.1,e.2.hex env.checksum⟩

theorem mappings_eq (m : Finmap fun _ : Denom => Address) :
    mappings env m = (entries m).map (exported env) := by
  rw [mappings,entries,map_filterMap]
  congr! 2 with d
  cases m.lookup d <;> rfl

theorem checkMapping_exported {e : Denom × Address} {a : Address} :
    checkMapping (exported env e) = .ok a ↔ genesisDenom e.1 = true ∧ a = e.2 := by
  simp only [checkMapping,exported,ite_error_eq_ok,isHexAddress_hex,hexToAddress_hex,genesisDenom]
  cases isValidIBCDenom e.1 <;> cases isValidGravityDenom e.1 <;> simp [eq_comm]

def readExternal (s : Store) (l : List (Denom × Address)) : Store :=
  { s with external := insertAll l s.external, denoms := insertAll (l.map Prod.swap) s.denoms }

def readAuto (s : Store) (l : List (Denom × Address)) : Store :=
  { s with auto := insertAll l s.auto, denoms := insertAll (l.map Prod.swap) s.denoms }

theorem initExternal_exported {e : Denom × Address} (hnew : s.external.lookup e.1 = none) :
    s.initExternal (exported env e) = .ok s' ↔
      genesisDenom e.1 = true ∧ s.getDenomByContract e.2 = none ∧ s' = s.readExternal [e] := by
  rw [initExternal,bind_eq_ok]
  simp only [checkMapping_exported,setExternalContractForDenom,getExternalContractByDenom]
  constructor
  · rintro ⟨a,⟨hd,rfl⟩,h⟩
    rw [show (exported env e).denom = e.1 from rfl,hnew,ite_error_eq_ok] at h
    exact ⟨hd,by simpa using h.1,(Except.ok.inj h.2).symm⟩
  · rintro ⟨hd,hnone,rfl⟩
    refine ⟨e.2,⟨hd,rfl⟩,?_⟩
    rw [show (exported env e).denom = e.1 from rfl,hnew,ite_error_eq_ok]
    exact ⟨by simp [hnone],rfl⟩

theorem getDenomByContract_readExternal {e : Denom × Address} (hd : e.1 ≠ []) (a : Address) :
    (s.readExternal [e]).getDenomByContract a = none ↔ a ≠ e.2 ∧ s.getDenomByContract a = none := by
  by_cases ha : a = e.2
  · subst ha
    simp [getDenomByContract,readExternal,insertAll,Finmap.lookup_insert,hd]
  · simp [getDenomByContract,readExternal,insertAll,Finmap.lookup_insert_of_ne _ ha,ha]

theorem ne_nil_of_genesisDenom {d : Denom} (h : genesisDenom d = true) : d ≠ [] := by
  refine ne_nil_of_valid ?_
  simp only [genesisDenom,Bool.or_eq_true] at h
  simp only [isValidCoinDenom,Bool.or_eq_true]
  tauto

/-- External contracts are read exactly if their denominations are accepted and no contract comes
twice. -/
theorem foldlM_initExternal {l : List (Denom × Address)} (hkeys : (l.map Prod.fst).Nodup)
    (hnew : ∀ e ∈ l, s.external.lookup e.1 = none) :
    (l.map (exported env)).foldlM initExternal s = .ok s' ↔
      (∀ e ∈ l, genesisDenom e.1 = true) ∧ (l.map Prod.snd).Nodup ∧
        (∀ e ∈ l, s.getDenomByContract e.2 = none) ∧ s' = s.readExternal l := by
  induction l generalizing s with
  | nil =>
    rw [map_nil,foldlM_nil,pure_eq_ok]
    exact ⟨fun h => ⟨by simp,by simp,by simp,h.symm⟩,fun h => h.2.2.2.symm⟩
  | cons e l ih =>
    rw [map_cons,nodup_cons] at hkeys
    have hnext : ∀ f ∈ l, (s.readExternal [e]).external.lookup f.1 = none := by
      intro f hf
      have hne : f.1 ≠ e.1 := fun heq => hkeys.1 (heq ▸ List.mem_map_of_mem hf)
      simpa [readExternal,insertAll,Finmap.lookup_insert_of_ne _ hne] using hnew f (by simp [hf])
    have hread : (s.readExternal [e]).readExternal l = s.readExternal (e :: l) := rfl
    simp only [map_cons,foldlM_cons,bind_eq_ok,initExternal_exported (hnew e (by simp))]
    constructor
    · rintro ⟨u,⟨hd,hnone,rfl⟩,h⟩
      obtain ⟨hds,hnodup,hnones,rfl⟩ := (ih hkeys.2 hnext).mp h
      have hrest := fun f hf =>
        (getDenomByContract_readExternal (ne_nil_of_genesisDenom hd) f.2).mp (hnones f hf)
      refine ⟨forall_mem_cons.mpr ⟨hd,hds⟩,nodup_cons.mpr ⟨fun hmem => ?_,hnodup⟩,
        forall_mem_cons.mpr ⟨hnone,fun f hf => (hrest f hf).2⟩,hread⟩
      obtain ⟨f,hf,heq⟩ := List.mem_map.mp hmem
      exact (hrest f hf).1 heq
    · rintro ⟨hds,hnodup,hnones,rfl⟩
      obtain ⟨hd,hds⟩ := forall_mem_cons.mp hds
      obtain ⟨hnone,hnones⟩ := forall_mem_cons.mp hnones
      rw [nodup_cons] at hnodup
      refine ⟨_,⟨hd,hnone,rfl⟩,(ih hkeys.2 hnext).mpr ⟨hds,hnodup.2,fun f hf => ?_,hread.symm⟩⟩
      rw [getDenomByContract_readExternal (ne_nil_of_genesisDenom hd)]
      exact ⟨fun heq => hnodup.1 (heq ▸ List.mem_map_of_mem hf),hnones f hf⟩

theorem foldlM_initAuto {l : List (Denom × Address)} :
    (l.map (exported env)).foldlM initAuto s = .ok s' ↔
      (∀ e ∈ l, genesisDenom e.1 = true) ∧ s' = s.readAuto l := by
  induction l generalizing s with
  | nil =>
    rw [map_nil,foldlM_nil,pure_eq_ok]
    exact ⟨fun h => ⟨by simp,h.symm⟩,fun h => h.2.symm⟩
  | cons e l ih =>
    have hone : ∀ u, s.initAuto (exported env e) = .ok u ↔
        genesisDenom e.1 = true ∧ u = s.readAuto [e] := by
      intro u
      simp only [initAuto,bind_eq_ok,checkMapping_exported,pure_eq_ok]
      exact ⟨fun ⟨_,⟨hd,ha⟩,hu⟩ => ⟨hd,by subst ha; exact hu.symm⟩,fun ⟨hd,hu⟩ => ⟨_,⟨hd,rfl⟩,hu.symm⟩⟩
    have hread : (s.readAuto [e]).readAuto l = s.readAuto (e :: l) := rfl
    simp only [map_cons,foldlM_cons,bind_eq_ok,hone,ih,forall_mem_cons]
    constructor
    · rintro ⟨u,⟨hd,rfl⟩,hds,rfl⟩
      exact ⟨⟨hd,hds⟩,hread⟩
    · rintro ⟨⟨hd,hds⟩,rfl⟩
      exact ⟨_,⟨hd,rfl⟩,hds,hread.symm⟩

/-- What reading the exported store leaves in an empty one. -/
def reread (s : Store) : Store :=
  ({ params := some s.getParams : Store }.readExternal (entries s.external)).readAuto (entries s.auto)

/-- Exported and read into an empty store, the store reads the same. -/
def RoundTrips (env : Env) (s : Store) : Prop := ∃ s', initGenesis env {} (exportGenesis env s) = .ok s' ∧
  s'.getParams = s.getParams ∧ s'.external = s.external ∧ s'.auto = s.auto ∧
    ∀ a, s'.getDenomByContract a = s.getDenomByContract a

/-- Every denomination with a contract is one that genesis accepts. -/
def Accepted (s : Store) : Prop := ∀ d a,
  s.getExternalContractByDenom d = some a ∨ s.getAutoContractByDenom d = some a → genesisDenom d = true

def ExternalInjective (s : Store) : Prop := ∀ d d' a,
  s.getExternalContractByDenom d = some a → s.getExternalContractByDenom d' = some a → d = d'

/-- The denomination a contract has after reading: the last one it was deployed for, or else the one
it is the external contract of. -/
def Reread (s : Store) (a : Address) (d : Denom) : Prop :=
  (s.getAutoContractByDenom d = some a ∧ ∀ d', d < d' → s.getAutoContractByDenom d' ≠ some a) ∨
  (∀ d', s.getAutoContractByDenom d' ≠ some a) ∧ s.getExternalContractByDenom d = some a

structure Exportable (s : Store) : Prop where
  accepted : s.Accepted
  injective : s.ExternalInjective
  reread : ∀ a d, s.getDenomByContract a = some d ↔ s.Reread a d

theorem nodup_snd_iff : ((entries s.external).map Prod.snd).Nodup ↔ s.ExternalInjective := by
  have hnodup : (entries s.external).Nodup :=
    (pairwise_entries s.external).imp fun hlt heq => hlt.ne (congrArg Prod.fst heq)
  rw [nodup_map_iff_inj_on hnodup]
  constructor
  · intro h d d' a hd hd'
    exact congrArg Prod.fst (h (d,a) (mem_entries.mpr hd) (d',a) (mem_entries.mpr hd') rfl)
  · rintro h ⟨d,a⟩ hd ⟨d',a'⟩ hd' heq
    obtain rfl : a = a' := heq
    rw [h d d' a (mem_entries.mp hd) (mem_entries.mp hd')]

theorem accepted_iff : s.Accepted ↔ (∀ e ∈ entries s.external, genesisDenom e.1 = true) ∧
    ∀ e ∈ entries s.auto, genesisDenom e.1 = true := by
  simp only [Accepted,getExternalContractByDenom,getAutoContractByDenom,Prod.forall,mem_entries]
  exact ⟨fun h => ⟨fun d a hd => h d a (.inl hd),fun d a hd => h d a (.inr hd)⟩,
    fun h d a hd => hd.elim (h.1 d a) (h.2 d a)⟩

theorem initGenesis_exportGenesis (hparams : s.getParams.validate env = true) :
    initGenesis env {} (exportGenesis env s) = .ok s' ↔
      s.Accepted ∧ s.ExternalInjective ∧ s' = s.reread := by
  have hkeys : ((entries s.external).map Prod.fst).Nodup :=
    pairwise_map.mpr ((pairwise_entries s.external).imp fun hlt => hlt.ne)
  simp only [initGenesis,exportGenesis,setParams,hparams,if_true,getExternalContracts,getAutoContracts,
    mappings_eq,bind_eq_ok]
  constructor
  · rintro ⟨u,hu,v,hv,h⟩
    cases hu
    obtain ⟨hext,hnodup,-,rfl⟩ := (foldlM_initExternal hkeys (by simp)).mp hv
    obtain ⟨hauto,rfl⟩ := foldlM_initAuto.mp h
    exact ⟨accepted_iff.mpr ⟨hext,hauto⟩,nodup_snd_iff.mp hnodup,rfl⟩
  · rintro ⟨haccepted,hinj,rfl⟩
    obtain ⟨hext,hauto⟩ := accepted_iff.mp haccepted
    refine ⟨_,rfl,_,(foldlM_initExternal hkeys (by simp)).mpr ⟨hext,nodup_snd_iff.mpr hinj,?_,rfl⟩,
      foldlM_initAuto.mpr ⟨hauto,rfl⟩⟩
    simp [getDenomByContract]

theorem pairwise_swap (m : Finmap fun _ : Denom => Address) :
    ((entries m).map Prod.swap).Pairwise fun e f => e.1 = f.1 → e.2 < f.2 := by
  rw [pairwise_map]
  refine (pairwise_entries m).imp ?_
  intro e f hlt _
  exact hlt

theorem getDenomByContract_reread (haccepted : s.Accepted) (hinj : s.ExternalInjective) (a : Address)
    (d : Denom) : s.reread.getDenomByContract a = some d ↔ s.Reread a d := by
  have hasymm : ∀ d d' : Denom, d < d' → ¬d' < d := fun _ _ => lt_asymm
  have hlookup : s.reread.denoms.lookup a = some d ↔ s.Reread a d := by
    simp only [reread,readAuto,readExternal,lookup_insertAll hasymm (pairwise_swap _),
      mem_map_swap,mem_entries,Finmap.lookup_empty,Reread,getAutoContractByDenom,
      getExternalContractByDenom]
    -- A denomination behind `d` with the same external contract is `d` itself.
    have hlast : s.external.lookup d = some a → ∀ d', d < d' → ¬s.external.lookup d' = some a :=
      fun hd d' hlt hd' => hlt.ne (hinj d d' a hd hd')
    tauto
  rw [getDenomByContract_eq,hlookup]
  refine and_iff_left_of_imp fun h => ne_nil_of_genesisDenom (haccepted d a ?_)
  exact h.elim (fun h => .inr h.1) fun h => .inl h.2

/-- A store survives export and reading exactly if it is exportable. -/
theorem roundTrips_iff (hparams : s.getParams.validate env = true) :
    s.RoundTrips env ↔ s.Exportable := by
  constructor
  · rintro ⟨s',h,-,-,-,hdenoms⟩
    obtain ⟨haccepted,hinj,rfl⟩ := (initGenesis_exportGenesis hparams).mp h
    refine ⟨haccepted,hinj,fun a d => ?_⟩
    rw [← hdenoms,getDenomByContract_reread haccepted hinj]
  · rintro ⟨haccepted,hinj,hreread⟩
    refine ⟨_,(initGenesis_exportGenesis hparams).mpr ⟨haccepted,hinj,rfl⟩,rfl,insertAll_entries _,
      insertAll_entries _,fun a => Option.ext fun d => ?_⟩
    rw [getDenomByContract_reread haccepted hinj,hreread]

/-- A consistent store needs only denominations that genesis accepts. -/
theorem Inv.exportable_iff (hs : s.Inv) : s.Exportable ↔ s.Accepted := by
  refine ⟨Exportable.accepted,fun haccepted => ⟨haccepted,fun d d' a hd hd' => ?_,fun a d => ?_⟩⟩
  · exact Option.some.inj (((hs.consistent a d).mpr (.inl hd)).symm.trans
      ((hs.consistent a d').mpr (.inl hd')))
  · -- All denominations recorded with one contract are the same.
    have hone : ∀ d', s.getAutoContractByDenom d' = some a → s.getDenomByContract a = some d' :=
      fun d' h => (hs.consistent a d').mpr (.inr h)
    have hsep := hs.separate d a
    rw [hs.consistent a d,Reread]
    constructor
    · rintro (hd | hd)
      · refine .inr ⟨fun d' hd' => ?_,hd⟩
        obtain rfl : d = d' := Option.some.inj (((hs.consistent a d).mpr (.inl hd)).symm.trans (hone d' hd'))
        exact hsep hd hd'
      · refine .inl ⟨hd,fun d' hlt hd' => hlt.ne ?_⟩
        exact Option.some.inj ((hone d hd).symm.trans (hone d' hd'))
    · rintro (h | h)
      · exact .inr h.1
      · exact .inl h.2

theorem getParams_setExternal {d : Denom} {a : Address}
    (h : s.setExternalContractForDenom d a = .ok s') : s'.getParams = s.getParams := by
  unfold setExternalContractForDenom at h
  rw [ite_error_eq_ok] at h
  obtain ⟨-,h⟩ := h
  cases h
  rfl

theorem getParams_delete (s : Store) (d : Denom) :
    (s.deleteExternalContractForDenom d).getParams = s.getParams := by
  unfold deleteExternalContractForDenom
  split <;> rfl

theorem valid_setParams {p : Params} (h : s.setParams env p = .ok s') :
    s'.getParams.validate env = true := by
  unfold setParams at h
  rw [ite_ok_error] at h
  obtain ⟨hvalid,rfl⟩ := h
  exact hvalid

theorem valid_initGenesis {g : GenesisState} (h : initGenesis env s g = .ok s') :
    s'.getParams.validate env = true := by
  obtain ⟨s₀,h₀,h⟩ := bind_eq_ok.mp h
  obtain ⟨s₁,h₁,h₂⟩ := bind_eq_ok.mp h
  have hext : s₁.getParams.validate env = true := by
    refine foldlM_invariant (I := fun s => s.getParams.validate env = true) h₁ (valid_setParams h₀) ?_
    intro m s t hs h
    obtain ⟨a,-,h⟩ := bind_eq_ok.mp h
    rwa [getParams_setExternal h]
  refine foldlM_invariant (I := fun s => s.getParams.validate env = true) h₂ hext ?_
  intro m s t hs h
  obtain ⟨a,-,h⟩ := bind_eq_ok.mp h
  cases h
  exact hs

end Store

namespace World

section
variable {env : Env} {w w' : World}

theorem getParams_register {msg : MsgUpdateTokenMapping}
    (h : w.registerOrUpdateTokenMapping env msg = .ok w') :
    w'.store.getParams = w.store.getParams := by
  obtain ⟨metadata,s,rfl,⟨a,hset⟩ | rfl⟩ := registerOrUpdateTokenMapping_ok h
  · exact Store.getParams_setExternal hset
  · exact Store.getParams_delete ..

/-- Only an update of the parameters changes them, and it checks them. -/
theorem params_apply {op : Op} (h : w.apply env op = .ok w') :
    w'.store.getParams = w.store.getParams ∨ w'.store.getParams.validate env = true := by
  cases op with
  | updateTokenMapping msg => exact .inl (getParams_register (updateTokenMapping_ok h).2)
  | tokenMappingChange p =>
    obtain ⟨msg,-,h⟩ := tokenMappingChange_ok h
    exact .inl (getParams_register h)
  | updateParams authority params =>
    obtain ⟨hvalid,rfl⟩ := updateParams_ok h
    exact .inr hvalid
  | updatePermissions source address permissions =>
    obtain ⟨ps,rfl⟩ := updatePermissions_ok h
    exact .inl rfl
  | convertVouchersToEvmCoins source coins => exact .inl (grown_convertVouchersToEvmCoins h).keeps.2.1
  | onRecvVouchers tokens receiver =>
    rcases onRecvVouchers_ok h with h | rfl
    · exact .inl (grown_convertVouchersToEvmCoins h).keeps.2.1
    · exact .inl rfl
  | ibcTransferCoins source destination coins channelId =>
    exact .inl (congrArg Store.getParams (kept_ibcTransferCoins h).1)
  | convertCoinFromNativeToCRC21 sender coin autoDeploy =>
    exact .inl (grown_convertCoinFromNativeToCRC21 h).keeps.2.1
  | convertCoinFromCRC21ToNative contract receiver amount =>
    exact .inl (congrArg Store.getParams (kept_convertCoinFromCRC21ToNative h).1)
  | ethereumTx steps => exact .inl (congrArg Store.getParams (kept_ethereumTx h).1)
  | receivePacket receiver c => exact .inl (grown_receivePacket h).keeps.2.1

theorem valid_run {g : Store.GenesisState} {w₀ : World}
    (hgenesis : Store.initGenesis env {} g = .ok w₀.store)
    (hrun : Run (step env) (fun _ _ => True) w₀ w) :
    w.store.getParams.validate env = true := by
  refine hrun.invariant (I := fun w => w.store.getParams.validate env = true)
    (Store.valid_initGenesis hgenesis) fun w op w' hw _ h => ?_
  obtain hsame | hvalid := params_apply (step_eq_some.mp h)
  · rwa [hsame]
  · exact hvalid

/-- A reachable store survives export and reading exactly if it is exportable; where contract and
denomination find each other, exactly if genesis accepts every denomination with a contract. -/
theorem genesis_round_trip {g : Store.GenesisState} {w₀ : World}
    (hgenesis : Store.initGenesis env {} g = .ok w₀.store)
    (hrun : Run (step env) (fun _ _ => True) w₀ w) :
    (w.store.RoundTrips env ↔ w.store.Exportable) ∧
    (w.store.Inv → (w.store.RoundTrips env ↔ w.store.Accepted)) := by
  have hiff := Store.roundTrips_iff (valid_run hgenesis hrun)
  exact ⟨hiff,fun hinv => hiff.trans hinv.exportable_iff⟩

end

open Sample in
/-- A store with a deployed contract survives. -/
theorem genesis_round_trip_deploy : ∃ w, Run (step env) (fun _ _ => True) world w ∧
    w.store.getAutoContractByDenom (ibcDenom 66) = some (created 0) ∧
    (w.store.RoundTrips env ↔ w.store.Exportable) := by
  have hstep : (world.step env (.convertCoinFromNativeToCRC21 (address 9) ⟨ibcDenom 66,5⟩ true)).any
      (fun w => w.store.getAutoContractByDenom (ibcDenom 66) = some (created 0)) = true := by
    decide +kernel
  obtain ⟨w,hw,hauto⟩ := (Option.any_eq_true ..).mp hstep
  have hrun : Run (step env) (fun _ _ => True) world w := .single ⟨_,trivial,hw⟩
  have hgenesis : Store.initGenesis env {} { params := params } = .ok world.store := by rfl
  exact ⟨w,hrun,of_decide_eq_true hauto,(genesis_round_trip hgenesis hrun).1⟩

open Sample in
/-- The export of a store with a token of this chain is refused. -/
theorem genesis_refuses_source : ∃ w,
    world.step env (.tokenMappingChange ⟨cronosDenom 49,(address 7).hex env.checksum,[],0⟩) = some w ∧
    Store.initGenesis env {} { params := params } = .ok world.store ∧
    w.store.getExternalContractByDenom (cronosDenom 49) = some (address 7) ∧
    w.store.Inv ∧ ¬w.store.RoundTrips env ∧
    ∀ s, Store.initGenesis env {} (Store.exportGenesis env w.store) ≠ .ok s := by
  have hstep : (world.step env
      (.tokenMappingChange ⟨cronosDenom 49,(address 7).hex env.checksum,[],0⟩)).any
      (fun w => w.store.getExternalContractByDenom (cronosDenom 49) = some (address 7)) = true := by
    decide +kernel
  obtain ⟨w,hw,hext⟩ := (Option.any_eq_true ..).mp hstep
  have hext := of_decide_eq_true hext
  have hgenesis : Store.initGenesis env {} { params := params } = .ok world.store := by rfl
  have hrun : Run (step env) (fun _ _ => True) world w := .single ⟨_,trivial,hw⟩
  have hinv : w.store.Inv := by
    obtain hgrown | ⟨-,hre⟩ := apply_cases (step_eq_some.mp hw)
    · have hsame : w.store.external = ∅ := hgrown.keeps.1
      simp [Store.getExternalContractByDenom,hsame] at hext
    · exact (Store.inv_empty ..).remapped hre
  have hrefused : ¬w.store.Accepted := fun h =>
    absurd (h (cronosDenom 49) (address 7) (.inl hext)) (by decide +kernel)
  have hnever : ∀ s, Store.initGenesis env {} (Store.exportGenesis env w.store) ≠ .ok s := fun s hs =>
    hrefused ((Store.initGenesis_exportGenesis (valid_run hgenesis hrun)).mp hs).1
  exact ⟨w,hw,hgenesis,hext,hinv,fun ⟨s,hs,_⟩ => hnever s hs,hnever⟩

end World

end Cronos
