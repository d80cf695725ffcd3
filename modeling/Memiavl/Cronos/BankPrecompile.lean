import Memiavl.Cronos.Effect

/-! The bank precompile: a contract mints, burns and moves coins of a denomination of its own. -/
namespace Cronos

open Fallible

/-- `EVMDenom`: `"evm/"` and the address in hexadecimal digits. -/
def evmDenom (env : Env) (token : Address) : Denom := [101,118,109,47] ++ token.hex env.checksum

theorem evmDenom_injective (env : Env) : Function.Injective (evmDenom env) := by
  intro a b h
  have hhex := List.append_cancel_left h
  rw [← hexToAddress_hex env.checksum a,hhex,hexToAddress_hex]

inductive BankCall
  | mint (recipient : Address) (amount : ℕ)
  | burn (recipient : Address) (amount : ℕ)
  | balanceOf (token addr : Address)
  | transfer (sender recipient : Address) (amount : ℕ)
  deriving DecidableEq

inductive BankError
  | notReadonly
  | invalidAmount
  | sendDisabled
  | native (err : Err)

structure BankStep where
  caller : Address
  readonly : Bool
  call : BankCall

section
-- The account of the module `evm`, and the denominations that may be sent.
variable (env : Env) (evm : Address) (sendEnabled : Denom → Bool)

def checkBlockedAddr (addr : Address) : Except BankError Unit :=
  match env.accAddressFromBech32 (env.bech32 addr) with
  | none => .error (.native .invalidAddress)
  | some addr => if env.blocked addr then .error (.native .unauthorized) else .ok ()

/-- The common part of the methods that write: `action` is run as a native action on the coins. -/
def writeCoins (s : BankStep) (recipient : Address) (amount : ℕ)
    (action : List Coin → Except Err Bank) : Except BankError Bank :=
  if s.readonly then .error .notReadonly
  else if amount = 0 then .error .invalidAmount
  else do
    checkBlockedAddr env recipient
    let amt ← (newCoin (evmDenom env s.caller) amount).mapError .native
    if !sendEnabled amt.denom then .error .sendDisabled
    else (newCoins amt >>= action).mapError .native

/-- `BankContract.Run` on unpacked arguments, with the balance it returns. A failed action is rolled
back. -/
def BankStep.exec (s : BankStep) (b : Bank) : Except BankError (Option ℕ × Bank) :=
  match s.call with
  | .mint recipient amount => do
    let b ← writeCoins env sendEnabled s recipient amount fun coins =>
      b.mintCoins evm coins >>= Bank.sendCoinsFromModuleToAccount env evm recipient coins
    .ok (none,b)
  | .burn recipient amount => do
    let b ← writeCoins env sendEnabled s recipient amount fun coins =>
      b.sendCoinsFromAccountToModule recipient evm coins >>= Bank.burnCoins evm coins
    .ok (none,b)
  | .balanceOf token addr => .ok (some (b.balance addr (evmDenom env token)),b)
  | .transfer sender recipient amount => do
    let b ← writeCoins env sendEnabled s recipient amount fun coins =>
      b.sendCoins sender recipient coins
    .ok (none,b)

end

namespace BankCall

/-- What a successful call adds to an account and takes from it, and what it mints and burns. -/
def gain (a : Address) : BankCall → ℕ
  | mint recipient amount | transfer _ recipient amount => if a = recipient then amount else 0
  | _ => 0

def loss (a : Address) : BankCall → ℕ
  | burn recipient amount => if a = recipient then amount else 0
  | transfer sender _ amount => if a = sender then amount else 0
  | _ => 0

def minted : BankCall → ℕ
  | mint _ amount => amount
  | _ => 0

def burned : BankCall → ℕ
  | burn _ amount => amount
  | _ => 0

end BankCall

/-- What a successful call has done: nothing outside the denomination of its caller. -/
structure BankStep.Effect (env : Env) (s : BankStep) (b b' : Bank) : Prop where
  balance : ∀ a, b'.balance a (evmDenom env s.caller)+s.call.loss a =
    b.balance a (evmDenom env s.caller)+s.call.gain a
  supply : b'.supply (evmDenom env s.caller)+s.call.burned =
    b.supply (evmDenom env s.caller)+s.call.minted
  frame : ∀ d, d ≠ evmDenom env s.caller →
    (∀ a, b'.balance a d = b.balance a d) ∧ b'.supply d = b.supply d
  readonly : s.readonly = true → b' = b

variable {env : Env} {evm : Address} {sendEnabled : Denom → Bool} {s : BankStep} {b b' : Bank}

theorem writeCoins_ok {recipient : Address} {amount : ℕ} {action : List Coin → Except Err Bank}
    (h : writeCoins env sendEnabled s recipient amount action = .ok b') :
    s.readonly = false ∧ ∃ coins, newCoins ⟨evmDenom env s.caller,amount⟩ = .ok coins ∧
      action coins = .ok b' := by
  unfold writeCoins at h
  rw [ite_error_eq_ok,ite_error_eq_ok] at h
  obtain ⟨hro,-,h⟩ := h
  obtain ⟨_,-,h⟩ := bind_eq_ok.mp h
  obtain ⟨amt,hamt,h⟩ := bind_eq_ok.mp h
  rw [ite_error_eq_ok,mapError_eq_ok] at h
  obtain rfl := newCoin_ok (mapError_eq_ok.mp hamt)
  exact ⟨by simpa using hro,bind_eq_ok.mp h.2⟩

theorem writeCoins_bind_ok {recipient : Address} {amount : ℕ} {reply : Option ℕ}
    {action : List Coin → Except Err Bank}
    (h : (writeCoins env sendEnabled s recipient amount action >>= fun b => .ok (none,b)) =
      .ok (reply,b')) :
    s.readonly = false ∧ ∃ coins, newCoins ⟨evmDenom env s.caller,amount⟩ = .ok coins ∧
      action coins = .ok b' := by
  obtain ⟨b₁,h₁,h⟩ := bind_eq_ok.mp h
  cases h
  exact writeCoins_ok h₁

theorem share_eq (d : Denom) (n : ℕ) (x a : Address) (e : Denom) :
    Coin.share ⟨d,n⟩ x a e = if e = d then if a = x then n else 0 else 0 := by
  by_cases he : e = d <;> by_cases ha : a = x <;> simp [Coin.share,he,ha]

theorem effect_of_coins (hro : s.readonly = false)
    (hbalance : ∀ a d, b'.balance a d+(if d = evmDenom env s.caller then s.call.loss a else 0) =
      b.balance a d+if d = evmDenom env s.caller then s.call.gain a else 0)
    (hsupply : ∀ d, b'.supply d+(if d = evmDenom env s.caller then s.call.burned else 0) =
      b.supply d+if d = evmDenom env s.caller then s.call.minted else 0) : s.Effect env b b' where
  balance a := by simpa using hbalance a (evmDenom env s.caller)
  supply := by simpa using hsupply (evmDenom env s.caller)
  frame d hd := ⟨fun a => by simpa [hd] using hbalance a d,by simpa [hd] using hsupply d⟩
  readonly h := by rw [hro] at h; cases h

theorem exec_effect {reply : Option ℕ} (h : s.exec env evm sendEnabled b = .ok (reply,b')) :
    s.Effect env b b' := by
  obtain ⟨caller,readonly,call⟩ := s
  cases call with
  | mint recipient amount =>
    obtain ⟨hro,coins,hc,h⟩ := writeCoins_bind_ok h
    obtain ⟨b₁,h₁,h⟩ := bind_eq_ok.mp h
    have hm := Bank.mintCoins_ok hc h₁
    obtain ⟨-,hs⟩ := Bank.sendCoinsFromModuleToAccount_ok hc h
    -- what the module account got it has passed on
    refine effect_of_coins hro (fun a d => ?_) fun d => ?_
    · have := hs.balance a d
      rw [hm.balance,share_eq _ _ recipient] at this
      simp only [BankCall.loss,BankCall.gain,ite_self] at this ⊢
      omega
    · rw [hs.supply,hm.supply]
      simp [BankCall.burned,BankCall.minted,Coin.total]
  | burn recipient amount =>
    obtain ⟨hro,coins,hc,h⟩ := writeCoins_bind_ok h
    obtain ⟨b₁,h₁,h⟩ := bind_eq_ok.mp h
    have hs := Bank.sendCoins_ok hc h₁
    have hb := Bank.burnCoins_ok hc h
    refine effect_of_coins hro (fun a d => ?_) fun d => ?_
    · have := hs.balance a d
      rw [← hb.balance,share_eq _ _ recipient] at this
      simp only [BankCall.loss,BankCall.gain,ite_self] at this ⊢
      omega
    · rw [← hs.supply,← hb.supply]
      simp [BankCall.burned,BankCall.minted,Coin.total]
  | balanceOf token addr =>
    cases h
    exact ⟨fun a => rfl,rfl,fun d hd => ⟨fun a => rfl,rfl⟩,fun _ => rfl⟩
  | transfer sender recipient amount =>
    obtain ⟨hro,coins,hc,h⟩ := writeCoins_bind_ok h
    have hs := Bank.sendCoins_ok hc h
    refine effect_of_coins hro (fun a d => ?_) fun d => by simp [hs.supply,BankCall.burned,BankCall.minted]
    have := hs.balance a d
    rw [share_eq,share_eq] at this
    exact this

section
variable (env : Env) (evm : Address) (sendEnabled : Denom → Bool)

def BankStep.apply (b : Bank) (s : BankStep) : Bank :=
  match s.exec env evm sendEnabled b with
  | .ok (_,b') => b'
  | .error _ => b

def successful : List BankStep → Bank → List BankStep
  | [],_ => []
  | s :: steps,b => match s.exec env evm sendEnabled b with
    | .ok (_,b') => s :: successful steps b'
    | .error _ => successful steps b

def callsOf (A : Address) (steps : List BankStep) (b : Bank) : List BankCall :=
  ((successful env evm sendEnabled steps b).filter (·.caller = A)).map (·.call)

end

theorem apply_frame {d : Denom} (hd : d ≠ evmDenom env s.caller) :
    (∀ a, (s.apply env evm sendEnabled b).balance a d = b.balance a d) ∧
      (s.apply env evm sendEnabled b).supply d = b.supply d := by
  unfold BankStep.apply
  split
  case h_1 h => exact (exec_effect h).frame d hd
  case h_2 => exact ⟨fun a => rfl,rfl⟩

theorem apply_readonly (hs : s.readonly = true) : s.apply env evm sendEnabled b = b := by
  unfold BankStep.apply
  split
  case h_1 h => exact (exec_effect h).readonly hs
  case h_2 => rfl

/-- The account of a denomination: what the calls of a list did to it since `b`. -/
structure Booked (d : Denom) (calls : List BankCall) (b b' : Bank) : Prop where
  balance : ∀ a, b'.balance a d+(calls.map (·.loss a)).sum =
    b.balance a d+(calls.map (·.gain a)).sum
  supply : b'.supply d+(calls.map (·.burned)).sum = b.supply d+(calls.map (·.minted)).sum

theorem Booked.cons {d : Denom} {c : BankCall} {calls : List BankCall} {b₁ : Bank}
    (hbalance : ∀ a, b₁.balance a d+c.loss a = b.balance a d+c.gain a)
    (hsupply : b₁.supply d+c.burned = b.supply d+c.minted) (h : Booked d calls b₁ b') :
    Booked d (c :: calls) b b' where
  balance a := by
    have := hbalance a
    have := h.balance a
    simp only [List.map_cons,List.sum_cons]
    omega
  supply := by
    have := h.supply
    simp only [List.map_cons,List.sum_cons]
    omega

theorem booked_run (A : Address) (steps : List BankStep) (b : Bank) :
    Booked (evmDenom env A) (callsOf env evm sendEnabled A steps b) b
      (steps.foldl (BankStep.apply env evm sendEnabled) b) := by
  induction steps generalizing b with
  | nil => exact ⟨fun a => rfl,rfl⟩
  | cons s steps ih =>
    cases he : s.exec env evm sendEnabled b with
    | error err =>
      have := ih b
      simpa [callsOf,successful,BankStep.apply,he] using this
    | ok r =>
      obtain ⟨reply,b₁⟩ := r
      have hrest := ih b₁
      have hs := exec_effect he
      have happly : s.apply env evm sendEnabled b = b₁ := by simp [BankStep.apply,he]
      rw [List.foldl_cons,happly]
      by_cases hA : s.caller = A
      · have hcalls : callsOf env evm sendEnabled A (s :: steps) b =
            s.call :: callsOf env evm sendEnabled A steps b₁ := by
          simp [callsOf,successful,he,hA]
        have hbal := hs.balance
        have hsup := hs.supply
        rw [hA] at hbal hsup
        rw [hcalls]
        exact (Booked.cons hbal hsup hrest)
      · have hcalls : callsOf env evm sendEnabled A (s :: steps) b =
            callsOf env evm sendEnabled A steps b₁ := by
          simp [callsOf,successful,he,hA]
        obtain ⟨hbal,hsup⟩ := hs.frame (evmDenom env A) fun h => hA (evmDenom_injective env h).symm
        rw [hcalls]
        exact ⟨fun a => by rw [hrest.balance,hbal],by rw [hrest.supply,hsup]⟩

instance : Fintype Address :=
  Fintype.ofEquiv (List.Vector UInt8 20)
    ⟨fun v => ⟨v.1,v.2⟩,fun a => ⟨a.bytes,a.length_eq⟩,fun _ => rfl,fun _ => rfl⟩

theorem sum_gain (c : BankCall) : ∑ a : Address, c.gain a+c.burned = ∑ a, c.loss a+c.minted := by
  cases c <;> simp [BankCall.gain,BankCall.loss,BankCall.burned,BankCall.minted]

theorem sum_calls (calls : List BankCall) :
    ∑ a : Address, (calls.map (·.gain a)).sum+(calls.map (·.burned)).sum =
      ∑ a : Address, (calls.map (·.loss a)).sum+(calls.map (·.minted)).sum := by
  induction calls with
  | nil => simp
  | cons c calls ih =>
    have := sum_gain c
    simp only [List.map_cons,List.sum_cons,Finset.sum_add_distrib]
    omega

theorem Booked.supply_eq_sum {d : Denom} {calls : List BankCall} (h : Booked d calls b b')
    (hb : b.supply d = ∑ a, b.balance a d) : b'.supply d = ∑ a, b'.balance a d := by
  have hsum : ∑ a, (b'.balance a d+(calls.map (·.loss a)).sum) =
      ∑ a, (b.balance a d+(calls.map (·.gain a)).sum) := Finset.sum_congr rfl fun a _ => h.balance a
  rw [Finset.sum_add_distrib,Finset.sum_add_distrib] at hsum
  have := sum_calls calls
  have := h.supply
  omega

/-- After any sequence of calls, the next one touches only the denomination of its caller, and a
denomination nobody held at first is what the successful calls of its contract have made it. -/
theorem bankCalls_isolated (env : Env) (evm : Address) (sendEnabled : Denom → Bool)
    (steps : List BankStep) (b b' : Bank)
    (hrun : steps.foldl (BankStep.apply env evm sendEnabled) b = b') :
    (∀ (s : BankStep) (d : Denom), d ≠ evmDenom env s.caller →
      (∀ a, (s.apply env evm sendEnabled b').balance a d = b'.balance a d) ∧
        (s.apply env evm sendEnabled b').supply d = b'.supply d) ∧
    (∀ s : BankStep, s.readonly = true → s.apply env evm sendEnabled b' = b') ∧
    ∀ A, b.supply (evmDenom env A) = 0 → (∀ a, b.balance a (evmDenom env A) = 0) →
      ∃ calls, calls = callsOf env evm sendEnabled A steps b ∧
        b'.supply (evmDenom env A)+(calls.map (·.burned)).sum = (calls.map (·.minted)).sum ∧
        b'.supply (evmDenom env A) = ∑ a, b'.balance a (evmDenom env A) ∧
        ∀ (s : BankStep) (x : Address), s.call = .balanceOf A x →
          ∃ n, s.exec env evm sendEnabled b' = .ok (some n,b') ∧ n = b'.balance x (evmDenom env A) ∧
            n+(calls.map (·.loss x)).sum = (calls.map (·.gain x)).sum := by
  subst hrun
  refine ⟨fun s d => apply_frame,fun s => apply_readonly,fun A hsupply hbalance => ?_⟩
  have hbooked := @booked_run env evm sendEnabled A steps b
  refine ⟨_,rfl,?_,hbooked.supply_eq_sum ?_,fun s x hs => ⟨_,?_,rfl,?_⟩⟩
  · rw [hbooked.supply,hsupply,Nat.zero_add]
  · simp [hsupply,hbalance]
  · simp [BankStep.exec,hs]
  · rw [hbooked.balance,hbalance,Nat.zero_add]

/-- The contract 7 has minted 5 coins for the account 8. -/
theorem bankCalls_isolated_mint : ∃ b',
    (⟨Sample.address 9,true,.balanceOf (Sample.address 7) (Sample.address 8)⟩ : BankStep).exec Sample.env
      (Sample.address 4) (fun _ => true) (BankStep.apply Sample.env (Sample.address 4) (fun _ => true)
        ⟨fun _ _ => 0,fun _ => 0,∅⟩ ⟨Sample.address 7,false,.mint (Sample.address 8) 5⟩) =
      .ok (some 5,b') := by
  obtain ⟨calls,hcalls,-,-,h⟩ := (bankCalls_isolated Sample.env (Sample.address 4) (fun _ => true)
    [⟨Sample.address 7,false,.mint (Sample.address 8) 5⟩] ⟨fun _ _ => 0,fun _ => 0,∅⟩ _ rfl).2.2
    (Sample.address 7) rfl fun _ => rfl
  have hmint : calls = [.mint (Sample.address 8) 5] := hcalls.trans (by decide +kernel)
  subst hmint
  obtain ⟨n,hn,-,hn5⟩ := h ⟨Sample.address 9,true,.balanceOf (Sample.address 7) (Sample.address 8)⟩
    (Sample.address 8) rfl
  have hn5 : n = 5 := hn5
  rw [hn5] at hn
  exact ⟨_,hn⟩

end Cronos
