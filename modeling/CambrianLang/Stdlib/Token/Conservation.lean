/-
  **The token ledgers are conserved.**

  Seen as a ledger, each of the four tokens is a `TokenLedger`: its calls pass
  guards that cover their debit and then do one `Effect` to the supply and the
  balances.  Conservation is proved once for such a ledger and holds of the four.
-/
import CambrianLang.Stdlib.Token.ERC20
import CambrianLang.Stdlib.Token.ERC7943

namespace CambrianLang.Stdlib

open Trapping Ledger

/-- An entity whose calls move balances under a total supply. -/
structure TokenLedger (A : Type) [Fintype A] [DecidableEq A] where
  State : Type
  Args : Type
  Call : Type
  deploy : Args → State
  guard : State → Ctx A → Call → Exec Unit
  supplyIn : State → Ctx A → Call → Exec U256
  balancesIn : State → Ctx A → Call → Exec (A → U256)
  call : State → Ctx A → Call → Exec State
  supply : State → U256
  balances : State → A → U256
  /-- The call is one of the route `mint`. -/
  mints : Call → Bool
  /-- The call is one of the route `burn`. -/
  burns : Call → Bool
  effect : Ctx A → Call → Effect A 256
  deploy_conserved : ∀ a, (supply (deploy a)).toNat = total (balances (deploy a))
  supplyIn_eq : ∀ s c k, supplyIn s c k = (effect c k).supply (supply s)
  balancesIn_eq : ∀ s c k, balancesIn s c k = (effect c k).balances (balances s)
  covered_of_guard : ∀ {s c k}, guard s c k = .ok () → (effect c k).Covered (balances s)
  call_ok : ∀ {s c k s'}, call s c k = .ok s' → guard s c k = .ok () ∧
    supplyIn s c k = .ok (supply s') ∧ balancesIn s c k = .ok (balances s')
  issued_eq : ∀ {c k}, mints k = false → (effect c k).issued = 0
  retired_eq : ∀ {c k}, burns k = false → (effect c k).retired = 0

namespace TokenLedger

variable {A : Type} [Fintype A] [DecidableEq A] (T : TokenLedger A)

/-- A transaction. -/
def step (s : T.State) (m : Ctx A × T.Call) : T.State :=
  Trapping.step (fun s m => T.call s m.1 m.2) s m

/-- A run of transactions, by any senders. -/
def run (s : T.State) (ms : List (Ctx A × T.Call)) : T.State :=
  Trapping.run (fun s m => T.call s m.1 m.2) s ms

/-- The exact sum of the balances. -/
def sum (s : T.State) : Nat := ∑ a, (T.balances s a).toNat

variable {T} {s s' : T.State} {c : Ctx A} {k : T.Call}

theorem sum_of_call (h : T.call s c k = .ok s') :
    T.sum s' + (T.effect c k).retired = T.sum s + (T.effect c k).issued := by
  obtain ⟨-, -, hB⟩ := T.call_ok h
  rw [T.balancesIn_eq] at hB
  exact Effect.total_balances hB

theorem conserved_of_call (hsum : (T.supply s).toNat = T.sum s) (h : T.call s c k = .ok s') :
    (T.supply s').toNat = T.sum s' := by
  obtain ⟨-, hS, hB⟩ := T.call_ok h
  rw [T.supplyIn_eq] at hS
  rw [T.balancesIn_eq] at hB
  exact Effect.conserved hsum hS hB

/-- **The supply is the sum of the balances after every run.** -/
theorem conserved (a : T.Args) (ms : List (Ctx A × T.Call)) :
    (T.supply (T.run (T.deploy a) ms)).toNat = T.sum (T.run (T.deploy a) ms) := by
  refine run_induction (P := fun s => (T.supply s).toNat = T.sum s) ?_ (T.deploy_conserved a)
  intro s m s' hsum hcall
  exact conserved_of_call hsum hcall

end TokenLedger

/-! ### The four tokens -/

section Entities

variable {A : Type} [Fintype A] [DecidableEq A] [Zero A] (h : Host A)

omit [Zero A] in
theorem total_single (holder : A) (supply : U256) :
    supply.toNat = total (Function.update (fun _ => 0#256) holder supply) := by
  have hupd := total_update (fun _ : A => 0#256) holder supply
  rw [total_zero] at hupd
  simpa using hupd.symm

def ERC20.Call.isMint : ERC20.Call A → Bool
  | .mint .. => true
  | _ => false

def ERC20.Call.isBurn : ERC20.Call A → Bool
  | .burn .. => true
  | _ => false

def ERC7943Min.Call.isMint : ERC7943Min.Call A → Bool
  | .mint .. => true
  | _ => false

def ERC7943Min.Call.isBurn : ERC7943Min.Call A → Bool
  | .burn .. => true
  | _ => false

def ERC7943.Call.isMint : ERC7943.Call A → Bool
  | .base k => k.isMint
  | .permit .. => false

def ERC7943.Call.isBurn : ERC7943.Call A → Bool
  | .base k => k.isBurn
  | .permit .. => false

def ERC20.ledger : TokenLedger A where
  State := ERC20 A
  Args := ERC20.Args A
  Call := ERC20.Call A
  deploy := ERC20.deploy h
  guard := ERC20.guard h
  supplyIn s _ k := ERC20.totalSupplyIn s k
  balancesIn := ERC20.balancesIn
  call := ERC20.call h
  supply := ERC20.mTotalSupply
  balances := ERC20.mBalances
  mints := ERC20.Call.isMint
  burns := ERC20.Call.isBurn
  effect := ERC20.effect
  deploy_conserved a := total_single a.initialHolder a.initialSupply
  supplyIn_eq := ERC20.totalSupplyIn_eq
  balancesIn_eq := ERC20.balancesIn_eq
  covered_of_guard := ERC20.covered_of_guard
  call_ok hcall := by
    obtain ⟨hg, supply, balances, allowances, nonces, hS, hB, -, -, rfl⟩ := ERC20.call_eq_ok.mp hcall
    exact ⟨hg, hS, hB⟩
  issued_eq {c k} hk := by
    cases k with
    | mint => cases hk
    | _ => rfl
  retired_eq {c k} hk := by
    cases k with
    | burn => cases hk
    | _ => rfl

def ERC20Multi.ledger : TokenLedger A where
  State := ERC20Multi A
  Args := BitVec 8 × ERC20.Args A
  Call := ERC20.Call A
  deploy a := ERC20Multi.deploy h a.1 a.2
  guard s := ERC20.guard h s.toERC20
  supplyIn s _ k := ERC20.totalSupplyIn s.toERC20 k
  balancesIn s := ERC20.balancesIn s.toERC20
  call := ERC20Multi.call h
  supply s := s.mTotalSupply
  balances s := s.mBalances
  mints := ERC20.Call.isMint
  burns := ERC20.Call.isBurn
  effect := ERC20.effect
  deploy_conserved a := total_single a.2.initialHolder a.2.initialSupply
  supplyIn_eq s := ERC20.totalSupplyIn_eq s.toERC20
  balancesIn_eq s := ERC20.balancesIn_eq s.toERC20
  covered_of_guard := ERC20.covered_of_guard
  call_ok {s c k s'} hcall := by
    obtain ⟨t, ht, hs'⟩ := bind_eq_ok.mp hcall
    cases hs'
    exact (ERC20.ledger h).call_ok ht
  issued_eq := (ERC20.ledger h).issued_eq
  retired_eq := (ERC20.ledger h).retired_eq

def ERC7943Min.ledger : TokenLedger A where
  State := ERC7943Min A
  Args := ERC7943Min.Args A
  Call := ERC7943Min.Call A
  deploy := ERC7943Min.deploy
  guard := ERC7943Min.guard h
  supplyIn s _ k := ERC7943Min.totalSupplyIn s k
  balancesIn := ERC7943Min.balancesIn
  call := ERC7943Min.call h
  supply := ERC7943Min.mTotalSupply
  balances := ERC7943Min.mBalances
  mints := ERC7943Min.Call.isMint
  burns := ERC7943Min.Call.isBurn
  effect := ERC7943Min.effect
  deploy_conserved a := total_single a.initialHolder a.initialSupply
  supplyIn_eq := ERC7943Min.totalSupplyIn_eq
  balancesIn_eq := ERC7943Min.balancesIn_eq
  covered_of_guard := ERC7943Min.covered_of_guard
  call_ok hcall := by
    obtain ⟨hg, supply, balances, allowances, hS, hB, -, rfl⟩ := ERC7943Min.call_eq_ok.mp hcall
    exact ⟨hg, hS, hB⟩
  issued_eq {c k} hk := by
    cases k with
    | mint => cases hk
    | _ => rfl
  retired_eq {c k} hk := by
    cases k with
    | burn => cases hk
    | _ => rfl

def ERC7943.ledger : TokenLedger A where
  State := ERC7943 A
  Args := ERC7943.Args A
  Call := ERC7943.Call A
  deploy := ERC7943.deploy h
  guard := ERC7943.guard h
  supplyIn s _ k := ERC7943.totalSupplyIn s k
  balancesIn := ERC7943.balancesIn
  call := ERC7943.call h
  supply s := s.mTotalSupply
  balances s := s.mBalances
  mints := ERC7943.Call.isMint
  burns := ERC7943.Call.isBurn
  effect := ERC7943.effect
  deploy_conserved a := total_single a.initialHolder a.initialSupply
  supplyIn_eq := ERC7943.totalSupplyIn_eq
  balancesIn_eq := ERC7943.balancesIn_eq
  covered_of_guard := ERC7943.covered_of_guard
  call_ok hcall := by
    obtain ⟨hg, supply, balances, allowances, nonces, frozen, count, hS, hB, -, -, -, -, rfl⟩ :=
      ERC7943.call_eq_ok.mp hcall
    exact ⟨hg, hS, hB⟩
  issued_eq {c k} hk := by
    cases k with
    | base k => exact (ERC7943Min.ledger h).issued_eq hk
    | permit => rfl
  retired_eq {c k} hk := by
    cases k with
    | base k => exact (ERC7943Min.ledger h).retired_eq hk
    | permit => rfl

/-- The standard-library tokens. -/
inductive StdToken
  | erc20
  | erc20Multi
  | erc7943
  | erc7943Min

def StdToken.ledger : StdToken → TokenLedger A
  | .erc20 => ERC20.ledger h
  | .erc20Multi => ERC20Multi.ledger h
  | .erc7943 => ERC7943.ledger h
  | .erc7943Min => ERC7943Min.ledger h

end Entities

end CambrianLang.Stdlib
