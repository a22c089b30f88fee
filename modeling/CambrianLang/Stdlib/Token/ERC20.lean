/-
  **The fungible tokens** (`stdlib/token/ERC20.cam`, `stdlib/token/ERC20Multi.cam`).

  The entity as the source lays it out: the guards of each route, then member by
  member what each route makes of it.  All members read the state before the
  call, and a guard or an operation that fails undoes the call.  Views and events
  are left out.
-/
import CambrianLang.Lib.Ledger
import CambrianLang.Stdlib.Token.Core

namespace CambrianLang.Stdlib

open Trapping Ledger

/-- The members of `ERC20`. -/
structure ERC20 (A : Type) where
  mName : String
  mSymbol : String
  mDecimals : BitVec 8
  mMinter : A
  mHashedName : U256
  mHashedVersion : U256
  mTotalSupply : U256
  mBalances : A → U256
  mAllowances : U256 → U256
  mNonces : A → U256

namespace ERC20

/-- The arguments of the constructor. -/
structure Args (A : Type) where
  name : String
  symbol : String
  decimals : BitVec 8
  minter : A
  initialHolder : A
  initialSupply : U256

/-- The routes that write. -/
inductive Call (A : Type)
  | transfer (toAddr : A) (amount : U256)
  | transferFrom (fromAddr toAddr : A) (amount : U256)
  | approve (spender : A) (amount : U256)
  | permit (owner spender : A) (value deadline : U256) (v : BitVec 8) (r s : U256)
  | mint (toAddr : A) (amount : U256)
  | burn (amount : U256)

variable {A : Type} [DecidableEq A] [Zero A] (h : Host A)

/-- `constructor`. -/
def deploy (a : Args A) : ERC20 A where
  mName := a.name
  mSymbol := a.symbol
  mDecimals := a.decimals
  mMinter := a.minter
  mHashedName := h.keccak256Packed (.text a.name)
  mHashedVersion := h.keccak256Packed (.text "1")
  mTotalSupply := a.initialSupply
  mBalances := Function.update (fun _ => 0#256) a.initialHolder a.initialSupply
  mAllowances := fun _ => 0#256
  mNonces := fun _ => 0#256

/-- The `where` of each route. -/
def guard (s : ERC20 A) (c : Ctx A) : Call A → Exec Unit
  | .transfer toAddr amount => do
    require (0#256 < amount) 1
    require (toAddr ≠ zeroAddress) 7
    require (amount ≤ balanceOf s.mBalances c.sender) 2
  | .transferFrom fromAddr toAddr amount => do
    require (0#256 < amount) 1
    require (toAddr ≠ zeroAddress) 7
    require (amount ≤ balanceOf s.mBalances fromAddr) 2
    require (amount ≤ allowanceOf h s.mAllowances fromAddr c.sender) 3
  | .approve spender _ => require (spender ≠ zeroAddress) 7
  | .permit owner spender value deadline v r sig =>
    permitGuard h s.mHashedName s.mHashedVersion s.mNonces c owner spender value deadline v r sig
  | .mint toAddr amount => do
    require (0#256 < amount) 1
    require (toAddr ≠ zeroAddress) 7
    require (c.sender = s.mMinter) 6
  | .burn amount => do
    require (0#256 < amount) 1
    require (amount ≤ balanceOf s.mBalances c.sender) 2

/-- `m_total_supply`. -/
def totalSupplyIn (s : ERC20 A) : Call A → Exec U256
  | .mint _ amount => add s.mTotalSupply amount
  | .burn amount => sub s.mTotalSupply amount
  | _ => .ok s.mTotalSupply

/-- `m_balances`. -/
def balancesIn (s : ERC20 A) (c : Ctx A) : Call A → Exec (A → U256)
  | .transfer toAddr amount => move s.mBalances c.sender toAddr amount
  | .transferFrom fromAddr toAddr amount => move s.mBalances fromAddr toAddr amount
  | .mint toAddr amount => credit s.mBalances toAddr amount
  | .burn amount => debit s.mBalances c.sender amount
  | _ => .ok s.mBalances

/-- `m_allowances`. -/
def allowancesIn (s : ERC20 A) (c : Ctx A) : Call A → Exec (U256 → U256)
  | .approve spender amount =>
    .ok (Function.update s.mAllowances (h.hashOf (.allowance c.sender spender)) amount)
  | .transferFrom fromAddr _ amount => do
    let rest ← allowanceAfterSpend (allowanceOf h s.mAllowances fromAddr c.sender) amount
    return Function.update s.mAllowances (h.hashOf (.allowance fromAddr c.sender)) rest
  | .permit owner spender value _ _ _ _ =>
    .ok (Function.update s.mAllowances (h.hashOf (.allowance owner spender)) value)
  | _ => .ok s.mAllowances

/-- `m_nonces`. -/
def noncesIn (s : ERC20 A) : Call A → Exec (A → U256)
  | .permit owner _ _ _ _ _ _ => do
    let next ← add (nonceOf s.mNonces owner) 1#256
    return Function.update s.mNonces owner next
  | _ => .ok s.mNonces

/-- A call: the guards, then every member from the state before. -/
def call (s : ERC20 A) (c : Ctx A) (k : Call A) : Exec (ERC20 A) := do
  guard h s c k
  let supply ← totalSupplyIn s k
  let balances ← balancesIn s c k
  let allowances ← allowancesIn h s c k
  let nonces ← noncesIn s k
  return { s with
    mTotalSupply := supply, mBalances := balances, mAllowances := allowances, mNonces := nonces }

end ERC20

/-- `ERC20Multi`: the members of `ERC20` and the identity. -/
structure ERC20Multi (A : Type) extends ERC20 A where
  mTokenId : BitVec 8

namespace ERC20Multi

variable {A : Type} [DecidableEq A] [Zero A] (h : Host A)

def deploy (tokenId : BitVec 8) (a : ERC20.Args A) : ERC20Multi A where
  toERC20 := ERC20.deploy h a
  mTokenId := tokenId

/-- The routes and transforms are those of `ERC20`. -/
def call (s : ERC20Multi A) (c : Ctx A) (k : ERC20.Call A) : Exec (ERC20Multi A) := do
  let t ← ERC20.call h s.toERC20 c k
  return { s with toERC20 := t }

end ERC20Multi

namespace ERC20

/-! ### What a call does -/

variable {A : Type} [DecidableEq A] [Zero A] {h : Host A} {s s' : ERC20 A} {c : Ctx A} {k : Call A}

/-- The effect of a call on the ledger. -/
def effect (c : Ctx A) : Call A → Effect A 256
  | .transfer toAddr amount => .move c.sender toAddr amount
  | .transferFrom fromAddr toAddr amount => .move fromAddr toAddr amount
  | .mint toAddr amount => .issue toAddr amount
  | .burn amount => .retire c.sender amount
  | _ => .keep

omit [DecidableEq A] [Zero A] in
theorem totalSupplyIn_eq (s : ERC20 A) (c : Ctx A) (k : Call A) :
    totalSupplyIn s k = (effect c k).supply s.mTotalSupply := by
  cases k <;> rfl

omit [Zero A] in
theorem balancesIn_eq (s : ERC20 A) (c : Ctx A) (k : Call A) :
    balancesIn s c k = (effect c k).balances s.mBalances := by
  cases k <;> rfl

/-- The guards cover the debit of every call. -/
theorem covered_of_guard (hg : guard h s c k = .ok ()) : (effect c k).Covered s.mBalances := by
  cases k with
  | transfer toAddr amount =>
    simp only [guard, bind_eq_ok, require_eq_ok] at hg
    obtain ⟨-, -, -, -, hle⟩ := hg
    exact hle
  | transferFrom fromAddr toAddr amount =>
    simp only [guard, bind_eq_ok, require_eq_ok] at hg
    obtain ⟨-, -, -, -, -, hle, -⟩ := hg
    exact hle
  | burn amount =>
    simp only [guard, bind_eq_ok, require_eq_ok] at hg
    obtain ⟨-, -, hle⟩ := hg
    exact hle
  | approve spender amount => trivial
  | permit owner spender value deadline v r sig => trivial
  | mint toAddr amount => trivial

/-- A call that returns passed its guards and wrote each member once. -/
theorem call_eq_ok : call h s c k = .ok s' ↔
    guard h s c k = .ok () ∧ ∃ supply balances allowances nonces,
      totalSupplyIn s k = .ok supply ∧ balancesIn s c k = .ok balances ∧
        allowancesIn h s c k = .ok allowances ∧ noncesIn s k = .ok nonces ∧
          s' = { s with
            mTotalSupply := supply, mBalances := balances, mAllowances := allowances,
            mNonces := nonces } := by
  simp only [call, bind_eq_ok, pure_eq_ok, Except.ok.injEq, eq_comm (a := s')]
  constructor
  · rintro ⟨⟨⟩, hg, supply, hS, balances, hB, allowances, hA, nonces, hN, heq⟩
    exact ⟨hg, supply, balances, allowances, nonces, hS, hB, hA, hN, heq⟩
  · rintro ⟨hg, supply, balances, allowances, nonces, hS, hB, hA, hN, heq⟩
    exact ⟨(), hg, supply, hS, balances, hB, allowances, hA, nonces, hN, heq⟩

end ERC20

end CambrianLang.Stdlib
