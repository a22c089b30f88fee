/-
  **The share ledger of the vaults** (`stdlib/vault/ERC4626Min.cam`,
  `stdlib/vault/ERC4626.cam`).

  The members of `ERC4626Min` are the share as an ERC-20; `ERC4626` adds one.  The
  share routes, the issue and the burn have the same text in both entities.  A
  transform recomputes its conversion instead of reading a value the route
  bound, so `issueShares` and `burnShares` take the conversion, not its result.
-/
import CambrianLang.Stdlib.Vault.Core

namespace CambrianLang.Stdlib

open Trapping Ledger

/-- The members of `ERC4626Min`. -/
structure ERC4626Min (A : Type) where
  mName : String
  mSymbol : String
  mDecimals : BitVec 8
  mTotalSupply : U256
  mBalances : A → U256
  mAllowances : U256 → U256

/-- The share routes. -/
inductive ShareCall (A : Type)
  | transfer (toAddr : A) (amount : U256)
  | transferFrom (fromAddr toAddr : A) (amount : U256)
  | approve (spender : A) (amount : U256)

namespace ERC4626Min

variable {A : Type} [DecidableEq A] [Zero A] (h : Host A)

/-- The arguments the two constructors share. -/
structure Args where
  name : String
  symbol : String
  decimals : BitVec 8

/-- `constructor`. -/
def deploy (a : Args) : ERC4626Min A where
  mName := a.name
  mSymbol := a.symbol
  mDecimals := a.decimals
  mTotalSupply := 0#256
  mBalances := fun _ => 0#256
  mAllowances := fun _ => 0#256

/-- The `where` of each share route. -/
def shareGuard (s : ERC4626Min A) (c : Ctx A) : ShareCall A → Exec Unit
  | .transfer toAddr amount => do
    require (0#256 < amount) 1
    require (toAddr ≠ zeroAddress) 7
    require (amount ≤ balanceOf s.mBalances c.sender) 2
  | .transferFrom fromAddr toAddr amount => do
    require (0#256 < amount) 1
    require (toAddr ≠ zeroAddress) 7
    require (amount ≤ balanceOf s.mBalances fromAddr) 2
    require (amount ≤ allowanceOf h s.mAllowances fromAddr c.sender) 3
  | .approve spender _ => require (spender ≠ zeroAddress) 7

/-- `m_balances` in the share routes. -/
def shareBalancesIn (s : ERC4626Min A) (c : Ctx A) : ShareCall A → Exec (A → U256)
  | .transfer toAddr amount => move s.mBalances c.sender toAddr amount
  | .transferFrom fromAddr toAddr amount => move s.mBalances fromAddr toAddr amount
  | .approve _ _ => .ok s.mBalances

/-- `m_allowances` in the share routes. -/
def shareAllowancesIn (s : ERC4626Min A) (c : Ctx A) : ShareCall A → Exec (U256 → U256)
  | .transfer _ _ => .ok s.mAllowances
  | .transferFrom fromAddr _ amount => do
    let rest ← allowanceAfterSpend (allowanceOf h s.mAllowances fromAddr c.sender) amount
    return Function.update s.mAllowances (h.hashOf (.allowance fromAddr c.sender)) rest
  | .approve spender amount =>
    .ok (Function.update s.mAllowances (h.hashOf (.allowance c.sender spender)) amount)

/-- A share route. -/
def shareCall (s : ERC4626Min A) (c : Ctx A) (k : ShareCall A) : Exec (ERC4626Min A) := do
  shareGuard h s c k
  let balances ← shareBalancesIn s c k
  let allowances ← shareAllowancesIn h s c k
  return { s with mBalances := balances, mAllowances := allowances }

/-- The members in the phase of `deposit` and `mint` that issues. -/
def issueShares (s : ERC4626Min A) (receiver : A) (shares : Exec U256) : Exec (ERC4626Min A) := do
  let supply ← add s.mTotalSupply (← shares)
  let balances ← credit s.mBalances receiver (← shares)
  return { s with mTotalSupply := supply, mBalances := balances }

/-- The members in the phase of `withdraw` and `redeem` that settles. -/
def burnShares (s : ERC4626Min A) (c : Ctx A) (owner : A) (shares : Exec U256) :
    Exec (ERC4626Min A) := do
  let supply ← sub s.mTotalSupply (← shares)
  let balances ← debit s.mBalances owner (← shares)
  let rest ← shareAllowanceAfterBurn h s.mAllowances owner c.sender (← shares)
  return { s with
    mTotalSupply := supply, mBalances := balances,
    mAllowances := Function.update s.mAllowances (h.hashOf (.allowance owner c.sender)) rest }

/-! ### What they do -/

variable {h} {s s' : ERC4626Min A} {c : Ctx A} {receiver owner : A}

omit [Zero A] in
theorem issueShares_eq_ok {shares : Exec U256} : issueShares s receiver shares = .ok s' ↔
    ∃ n supply balances, shares = .ok n ∧ add s.mTotalSupply n = .ok supply ∧
      credit s.mBalances receiver n = .ok balances ∧
        s' = { s with mTotalSupply := supply, mBalances := balances } := by
  simp only [issueShares, bind_eq_ok, pure_eq_ok, Except.ok.injEq, eq_comm (a := s')]
  constructor
  · rintro ⟨n, hn, supply, hS, n', hn', balances, hB, heq⟩
    rw [hn] at hn'
    cases hn'
    exact ⟨n, supply, balances, hn, hS, hB, heq⟩
  · rintro ⟨n, supply, balances, hn, hS, hB, heq⟩
    exact ⟨n, hn, supply, hS, n, hn, balances, hB, heq⟩

omit [Zero A] in
theorem burnShares_eq_ok {shares : Exec U256} : burnShares h s c owner shares = .ok s' ↔
    ∃ n supply balances rest, shares = .ok n ∧ sub s.mTotalSupply n = .ok supply ∧
      debit s.mBalances owner n = .ok balances ∧
        shareAllowanceAfterBurn h s.mAllowances owner c.sender n = .ok rest ∧
          s' = { s with
            mTotalSupply := supply, mBalances := balances,
            mAllowances :=
              Function.update s.mAllowances (h.hashOf (.allowance owner c.sender)) rest } := by
  simp only [burnShares, bind_eq_ok, pure_eq_ok, Except.ok.injEq, eq_comm (a := s')]
  constructor
  · rintro ⟨n, hn, supply, hS, n', hn', balances, hB, n'', hn'', rest, hR, heq⟩
    rw [hn] at hn' hn''
    cases hn'
    cases hn''
    exact ⟨n, supply, balances, rest, hn, hS, hB, hR, heq⟩
  · rintro ⟨n, supply, balances, rest, hn, hS, hB, hR, heq⟩
    exact ⟨n, hn, supply, hS, n, hn, balances, hB, n, hn, rest, hR, heq⟩

theorem shareCall_eq_ok {k : ShareCall A} : shareCall h s c k = .ok s' ↔
    shareGuard h s c k = .ok () ∧ ∃ balances allowances,
      shareBalancesIn s c k = .ok balances ∧ shareAllowancesIn h s c k = .ok allowances ∧
        s' = { s with mBalances := balances, mAllowances := allowances } := by
  simp only [shareCall, bind_eq_ok, pure_eq_ok, Except.ok.injEq, eq_comm (a := s')]
  constructor
  · rintro ⟨⟨⟩, hg, balances, hB, allowances, hA, heq⟩
    exact ⟨hg, balances, allowances, hB, hA, heq⟩
  · rintro ⟨hg, balances, allowances, hB, hA, heq⟩
    exact ⟨(), hg, balances, hB, allowances, hA, heq⟩

omit [Zero A] in
/-- Issuing and burning change the supply by the shares. -/
theorem supply_of_issue {n : U256} (hi : issueShares s receiver (.ok n) = .ok s') :
    s'.mTotalSupply.toNat = s.mTotalSupply.toNat + n.toNat := by
  obtain ⟨n', supply, balances, hn, hS, -, rfl⟩ := issueShares_eq_ok.mp hi
  cases hn
  exact add_eq_ok.mp hS

omit [Zero A] in
theorem supply_of_burn {n : U256} (hb : burnShares h s c owner (.ok n) = .ok s') :
    s'.mTotalSupply.toNat + n.toNat = s.mTotalSupply.toNat := by
  obtain ⟨n', supply, balances, rest, hn, hS, -, -, rfl⟩ := burnShares_eq_ok.mp hb
  cases hn
  exact sub_eq_ok.mp hS

omit [Zero A] in
/-- Issuing changes the receiver's balance, burning the owner's, by the shares. -/
theorem balance_of_issue {n : U256} (hi : issueShares s receiver (.ok n) = .ok s') :
    (s'.mBalances receiver).toNat = (s.mBalances receiver).toNat + n.toNat := by
  obtain ⟨n', supply, balances, hn, -, hB, rfl⟩ := issueShares_eq_ok.mp hi
  cases hn
  obtain ⟨z, hz, rfl⟩ := credit_eq_ok.mp hB
  change (Function.update s.mBalances receiver z receiver).toNat = _
  rw [Function.update_self]
  exact hz

omit [Zero A] in
theorem balance_of_burn {n : U256} (hb : burnShares h s c owner (.ok n) = .ok s') :
    (s'.mBalances owner).toNat + n.toNat = (s.mBalances owner).toNat := by
  obtain ⟨n', supply, balances, rest, hn, -, hB, -, rfl⟩ := burnShares_eq_ok.mp hb
  cases hn
  obtain ⟨z, hz, rfl⟩ := debit_eq_ok.mp hB
  change (Function.update s.mBalances owner z owner).toNat + n.toNat = _
  rw [Function.update_self]
  exact hz

section Sums

variable [Fintype A]

/-- The supply of shares is the sum of the balances. -/
def Conserved (s : ERC4626Min A) : Prop := s.mTotalSupply.toNat = total s.mBalances

omit [DecidableEq A] [Zero A] in
theorem balance_le_supply (hs : Conserved s) (x : A) :
    (balanceOf s.mBalances x).toNat ≤ s.mTotalSupply.toNat := by
  have hle := toNat_le_total s.mBalances x
  rw [Conserved] at hs
  rw [hs]
  exact hle

omit [Zero A] in
theorem conserved_of_issue {shares : Exec U256} (hs : Conserved s)
    (h : issueShares s receiver shares = .ok s') : Conserved s' := by
  obtain ⟨n, supply, balances, -, hS, hB, rfl⟩ := issueShares_eq_ok.mp h
  exact Effect.conserved (e := .issue receiver n) hs hS hB

omit [Zero A] in
theorem conserved_of_burn {shares : Exec U256} (hs : Conserved s)
    (hb : burnShares h s c owner shares = .ok s') : Conserved s' := by
  obtain ⟨n, supply, balances, rest, -, hS, hB, -, rfl⟩ := burnShares_eq_ok.mp hb
  exact Effect.conserved (e := .retire owner n) hs hS hB

theorem conserved_of_share {k : ShareCall A} (hs : Conserved s)
    (hk : shareCall h s c k = .ok s') : Conserved s' := by
  obtain ⟨-, balances, allowances, hB, -, rfl⟩ := shareCall_eq_ok.mp hk
  cases k with
  | transfer toAddr amount =>
    exact Effect.conserved (e := .move c.sender toAddr amount) hs rfl hB
  | transferFrom fromAddr toAddr amount =>
    exact Effect.conserved (e := .move fromAddr toAddr amount) hs rfl hB
  | approve spender amount =>
    cases hB
    exact hs

omit [Zero A] in
/-- An owner burns what it holds. -/
theorem burnShares_own_isOk {n : U256} (hs : Conserved s) (hn : n ≤ s.mBalances c.sender) :
    ∃ t, burnShares h s c c.sender (.ok n) = .ok t := by
  have hle := BitVec.le_def.mp hn
  have hbal := toNat_le_total s.mBalances c.sender
  have hsupply : sub s.mTotalSupply n = .ok (s.mTotalSupply - n) := by
    apply sub_of_le
    rw [hs]
    omega
  have hbalances : debit s.mBalances c.sender n =
      .ok (Function.update s.mBalances c.sender (s.mBalances c.sender - n)) :=
    debit_eq_ok.mpr ⟨_, toNat_sub_add hle, rfl⟩
  have hrest : shareAllowanceAfterBurn h s.mAllowances c.sender c.sender n =
      .ok (allowanceOf h s.mAllowances c.sender c.sender) := if_pos rfl
  exact ⟨_, burnShares_eq_ok.mpr ⟨n, _, _, _, rfl, hsupply, hbalances, hrest, rfl⟩⟩

end Sums

end ERC4626Min

/-! ### A vault and its asset -/

/-- A vault and what its asset holds for it. -/
structure World (V : Type) where
  vault : V
  assets : U256

/-- What the asset did when it was asked to move an amount: its answer and, when the
    amount was to come in, what arrived. -/
structure Answer where
  ok : Bool
  got : U256

/-- The asset's reaction to being asked for an amount; it may also revert. -/
abbrev Reply := U256 → Exec Answer

/-- An asset that moves exactly what it is asked to, and says so. -/
def exactReply : Reply := fun n => .ok ⟨true, n⟩

/-- The routes that write. -/
inductive VaultCall (A : Type)
  | deposit (assets : U256) (receiver : A)
  | mint (shares : U256) (receiver : A)
  | withdraw (assets : U256) (receiver owner : A)
  | redeem (shares : U256) (receiver owner : A)
  | share (k : ShareCall A)

/-- What happens to a vault: a call, with the asset's reaction to it, or assets that
    come in from outside. -/
inductive VaultAction (A : Type)
  | call (c : Ctx A) (k : VaultCall A) (reply : Reply)
  | donate (amount : U256)

/-- The account whose shares a call burns. -/
def VaultCall.burnsOf {A : Type} : VaultCall A → Option A
  | .withdraw _ _ owner => some owner
  | .redeem _ _ owner => some owner
  | _ => none

section Send

variable {A : Type} [DecidableEq A] {c : Ctx A} {receiver : A} {held n left : U256}

/-- What the asset holds for the vault after `transfer(receiver, n)`: a vault that sends
    to itself keeps the amount. -/
def sendOut (c : Ctx A) (receiver : A) (held n : U256) : Exec U256 := do
  let left ← sub held n
  return if receiver = c.address then held else left

theorem sendOut_eq_ok : sendOut c receiver held n = .ok left ↔
    n.toNat ≤ held.toNat ∧
      left.toNat + (if receiver = c.address then 0 else n.toNat) = held.toNat := by
  simp only [sendOut, bind_eq_ok, pure_eq_ok, Except.ok.injEq, sub_eq_ok]
  constructor
  · rintro ⟨rest, hrest, rfl⟩
    split <;> omega
  · rintro ⟨hle, hleft⟩
    refine ⟨held - n, toNat_sub_add hle, ?_⟩
    have hsum := toNat_sub_add hle
    apply BitVec.eq_of_toNat_eq
    by_cases hr : receiver = c.address
    · rw [if_pos hr] at hleft ⊢
      exact hleft.symm
    · rw [if_neg hr] at hleft ⊢
      omega

theorem sendOut_isOk (c : Ctx A) (receiver : A) (hle : n.toNat ≤ held.toNat) :
    ∃ left, sendOut c receiver held n = .ok left := by
  rw [sendOut, sub_of_le hle]
  exact ⟨_, rfl⟩

/-- What went out is at most what was sent. -/
theorem went_of_sendOut (hs : sendOut c receiver held n = .ok left) :
    ∃ paid, paid ≤ n.toNat ∧ left.toNat + paid = held.toNat := by
  obtain ⟨-, hleft⟩ := sendOut_eq_ok.mp hs
  refine ⟨_, ?_, hleft⟩
  split
  · exact Nat.zero_le _
  · exact Nat.le_refl _

end Send

end CambrianLang.Stdlib
