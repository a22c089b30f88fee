/-
  **The vault with the textbook conversion** (`stdlib/vault/ERC4626Min.cam`).

  The routes for an asset that does not call back.  This vault issues against the
  amount it asked for and not against what arrived, and a redemption does not
  compare the payout with what is held.
-/
import CambrianLang.Stdlib.Vault.Shares

namespace CambrianLang.Stdlib.ERC4626Min

open Trapping

variable {A : Type} [DecidableEq A] [Zero A] (h : Host A)

/-! ### Routes -/

/-- `deposit`. -/
def deposit (w : World (ERC4626Min A)) (assets : U256) (receiver : A) (pull : Reply) :
    Exec (World (ERC4626Min A) × U256) := do
  require (receiver ≠ zeroAddress) 20
  let issued ← ratioSharesDown assets w.vault.mTotalSupply w.assets
  let r ← pull assets
  let after ← add w.assets r.got
  require (r.ok = true) 24
  let s ← issueShares w.vault receiver (ratioSharesDown assets w.vault.mTotalSupply w.assets)
  return (⟨s, after⟩, issued)

/-- `mint`. -/
def mint (w : World (ERC4626Min A)) (shares : U256) (receiver : A) (pull : Reply) :
    Exec (World (ERC4626Min A) × U256) := do
  require (receiver ≠ zeroAddress) 20
  let cost ← ratioAssetsUp shares w.vault.mTotalSupply w.assets
  let r ← pull cost
  let after ← add w.assets r.got
  require (r.ok = true) 24
  let s ← issueShares w.vault receiver (.ok shares)
  return (⟨s, after⟩, cost)

/-- `withdraw`. -/
def withdraw (w : World (ERC4626Min A)) (c : Ctx A) (assets : U256) (receiver owner : A)
    (push : Reply) : Exec (World (ERC4626Min A) × U256) := do
  require (receiver ≠ zeroAddress) 20
  require (owner ≠ zeroAddress) 20
  let burnt ← ratioSharesUp assets w.vault.mTotalSupply w.assets
  require (assets ≤ w.assets) 23
  require (burnt ≤ balanceOf w.vault.mBalances owner) 21
  require (shareSpendAllowed h w.vault.mAllowances owner c.sender burnt = true) 22
  let s ← burnShares h w.vault c owner (ratioSharesUp assets w.vault.mTotalSupply w.assets)
  let r ← push assets
  let left ← sendOut c receiver w.assets assets
  require (r.ok = true) 24
  return (⟨s, left⟩, burnt)

/-- `redeem`. -/
def redeem (w : World (ERC4626Min A)) (c : Ctx A) (shares : U256) (receiver owner : A)
    (push : Reply) : Exec (World (ERC4626Min A) × U256) := do
  require (receiver ≠ zeroAddress) 20
  require (owner ≠ zeroAddress) 20
  let payout ← ratioAssetsDown shares w.vault.mTotalSupply w.assets
  require (shares ≤ balanceOf w.vault.mBalances owner) 21
  require (shareSpendAllowed h w.vault.mAllowances owner c.sender shares = true) 22
  let s ← burnShares h w.vault c owner (.ok shares)
  let r ← push payout
  let left ← sendOut c receiver w.assets payout
  require (r.ok = true) 24
  return (⟨s, left⟩, payout)

def act (w : World (ERC4626Min A)) : VaultAction A → Exec (World (ERC4626Min A))
  | .call _ (.deposit assets receiver) reply => do return (← deposit w assets receiver reply).1
  | .call _ (.mint shares receiver) reply => do return (← mint w shares receiver reply).1
  | .call c (.withdraw assets receiver owner) reply => do
    return (← withdraw h w c assets receiver owner reply).1
  | .call c (.redeem shares receiver owner) reply => do
    return (← redeem h w c shares receiver owner reply).1
  | .call c (.share k) _ => do
    let t ← shareCall h w.vault c k
    return { w with vault := t }
  | .donate amount => do
    let assets ← add w.assets amount
    return { w with assets := assets }

/-! ### Views -/

/-- `convertToShares` and `previewDeposit`. -/
def previewDeposit (w : World (ERC4626Min A)) (assets : U256) : Exec U256 :=
  ratioSharesDown assets w.vault.mTotalSupply w.assets

/-- `convertToAssets` and `previewRedeem`. -/
def previewRedeem (w : World (ERC4626Min A)) (shares : U256) : Exec U256 :=
  ratioAssetsDown shares w.vault.mTotalSupply w.assets

/-- `previewMint`. -/
def previewMint (w : World (ERC4626Min A)) (shares : U256) : Exec U256 :=
  ratioAssetsUp shares w.vault.mTotalSupply w.assets

/-- `previewWithdraw`. -/
def previewWithdraw (w : World (ERC4626Min A)) (assets : U256) : Exec U256 :=
  ratioSharesUp assets w.vault.mTotalSupply w.assets

/-- `maxWithdraw`. -/
def maxWithdraw (w : World (ERC4626Min A)) (owner : A) : Exec U256 :=
  ratioAssetsDown (balanceOf w.vault.mBalances owner) w.vault.mTotalSupply w.assets

/-- `maxRedeem`. -/
def maxRedeem (w : World (ERC4626Min A)) (owner : A) : U256 := balanceOf w.vault.mBalances owner

/-! ### What a route does -/

section Routes

variable {h} {w w' : World (ERC4626Min A)} {c : Ctx A} {receiver owner : A} {x n : U256}
variable {reply : Reply}

theorem deposit_ok (hd : deposit w x receiver reply = .ok (w', n)) :
    ratioSharesDown x w.vault.mTotalSupply w.assets = .ok n ∧
      issueShares w.vault receiver (.ok n) = .ok w'.vault ∧
        ∃ r, reply x = .ok r ∧ add w.assets r.got = .ok w'.assets := by
  simp only [deposit, bind_eq_ok, require_eq_ok, pure_eq_ok, Except.ok.injEq,
    Prod.mk.injEq] at hd
  obtain ⟨-, -, issued, hissued, r, hr, after, hafter, -, -, s, hs, rfl, rfl⟩ := hd
  rw [hissued] at hs
  exact ⟨hissued, hs, r, hr, hafter⟩

theorem mint_ok (hm : mint w x receiver reply = .ok (w', n)) :
    ratioAssetsUp x w.vault.mTotalSupply w.assets = .ok n ∧
      issueShares w.vault receiver (.ok x) = .ok w'.vault ∧
        ∃ r, reply n = .ok r ∧ add w.assets r.got = .ok w'.assets := by
  simp only [mint, bind_eq_ok, require_eq_ok, pure_eq_ok, Except.ok.injEq, Prod.mk.injEq] at hm
  obtain ⟨-, -, cost, hcost, r, hr, after, hafter, -, -, s, hs, rfl, rfl⟩ := hm
  exact ⟨hcost, hs, r, hr, hafter⟩

theorem withdraw_ok (hw : withdraw h w c x receiver owner reply = .ok (w', n)) :
    ratioSharesUp x w.vault.mTotalSupply w.assets = .ok n ∧
      burnShares h w.vault c owner (.ok n) = .ok w'.vault ∧
        sendOut c receiver w.assets x = .ok w'.assets := by
  simp only [withdraw, bind_eq_ok, require_eq_ok, pure_eq_ok, Except.ok.injEq,
    Prod.mk.injEq] at hw
  obtain ⟨-, -, -, -, burnt, hburnt, -, -, -, -, -, -, s, hs, r, -, left, hleft, -, -, rfl, rfl⟩ := hw
  rw [hburnt] at hs
  exact ⟨hburnt, hs, hleft⟩

theorem redeem_ok (hr : redeem h w c x receiver owner reply = .ok (w', n)) :
    ratioAssetsDown x w.vault.mTotalSupply w.assets = .ok n ∧
      burnShares h w.vault c owner (.ok x) = .ok w'.vault ∧
        sendOut c receiver w.assets n = .ok w'.assets := by
  simp only [redeem, bind_eq_ok, require_eq_ok, pure_eq_ok, Except.ok.injEq,
    Prod.mk.injEq] at hr
  obtain ⟨-, -, -, -, payout, hpayout, -, -, -, -, s, hs, r, -, left, hleft, -, -, rfl, rfl⟩ := hr
  exact ⟨hpayout, hs, hleft⟩

theorem conserved_of_act [Fintype A] {a : VaultAction A} (hs : w.vault.Conserved)
    (ha : act h w a = .ok w') : w'.vault.Conserved := by
  cases a with
  | donate amount =>
    simp only [act, bind_eq_ok, pure_eq_ok, Except.ok.injEq] at ha
    obtain ⟨assets, -, rfl⟩ := ha
    exact hs
  | call c k reply =>
    cases k with
    | deposit assets receiver =>
      simp only [act, bind_eq_ok, pure_eq_ok, Except.ok.injEq] at ha
      obtain ⟨⟨w₁, n⟩, hd, rfl⟩ := ha
      exact conserved_of_issue hs (deposit_ok hd).2.1
    | mint shares receiver =>
      simp only [act, bind_eq_ok, pure_eq_ok, Except.ok.injEq] at ha
      obtain ⟨⟨w₁, n⟩, hm, rfl⟩ := ha
      exact conserved_of_issue hs (mint_ok hm).2.1
    | withdraw assets receiver owner =>
      simp only [act, bind_eq_ok, pure_eq_ok, Except.ok.injEq] at ha
      obtain ⟨⟨w₁, n⟩, hw, rfl⟩ := ha
      exact conserved_of_burn hs (withdraw_ok hw).2.1
    | redeem shares receiver owner =>
      simp only [act, bind_eq_ok, pure_eq_ok, Except.ok.injEq] at ha
      obtain ⟨⟨w₁, n⟩, hr, rfl⟩ := ha
      exact conserved_of_burn hs (redeem_ok hr).2.1
    | share k =>
      simp only [act, bind_eq_ok, pure_eq_ok, Except.ok.injEq] at ha
      obtain ⟨t, ht, rfl⟩ := ha
      exact conserved_of_share hs ht

end Routes

end CambrianLang.Stdlib.ERC4626Min
