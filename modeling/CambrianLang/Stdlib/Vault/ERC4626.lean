/-
  **The accounting vault** (`stdlib/vault/ERC4626.cam`).

  A write route runs in segments between the calls it makes to its asset, so each
  segment is a function of its own: `depositIssue`, `mintCost`, `mintIssue`,
  `withdrawSettle`, `redeemSettle`.  The routes put the segments together for an
  asset that does not call back: it holds `assets` for the vault, answers the
  balance truthfully, answers a pull with a flag and whatever arrived, and moves
  exactly what it is asked to move out.
-/
import CambrianLang.Stdlib.Vault.Shares

namespace CambrianLang.Stdlib

open Trapping SharePrice

/-- The members of `ERC4626`. -/
structure ERC4626 (A : Type) extends ERC4626Min A where
  mVirtualShares : U256

namespace ERC4626

variable {A : Type} [DecidableEq A] [Zero A] (h : Host A)

/-- `constructor`. -/
def deploy (a : ERC4626Min.Args) (virtualShares : U256) : Exec (ERC4626 A) := do
  require (minVirtualShares ≤ virtualShares) 25
  return { ERC4626Min.deploy a with mVirtualShares := virtualShares }

/-! ### Segments -/

/-- `deposit` from the second balance on: the phases `price` and `issue`. -/
def depositIssue (s : ERC4626 A) (receiver : A) (before after : U256) (paid : Bool) :
    Exec (ERC4626 A × U256) := do
  require (paid = true) 24
  let got ← sub after before
  let issued ← offsetSharesDown got s.mTotalSupply s.mVirtualShares before
  let t ← ERC4626Min.issueShares s.toERC4626Min receiver do
    let got ← sub after before
    offsetSharesDown got s.mTotalSupply s.mVirtualShares before
  return ({ s with toERC4626Min := t }, issued)

/-- The `cost` of `mint`. -/
def mintCost (s : ERC4626 A) (shares before : U256) : Exec U256 :=
  offsetAssetsUp shares s.mTotalSupply s.mVirtualShares before

/-- `mint` from the second balance on: the phase `issue`. -/
def mintIssue (s : ERC4626 A) (receiver : A) (shares before cost after : U256) (paid : Bool) :
    Exec (ERC4626 A) := do
  require (paid = true) 24
  let got ← sub after before
  require (cost ≤ got) 26
  let t ← ERC4626Min.issueShares s.toERC4626Min receiver (.ok shares)
  return { s with toERC4626Min := t }

/-- `withdraw` from the balance on: the rest of `read` and the phase `settle`. -/
def withdrawSettle (s : ERC4626 A) (c : Ctx A) (assets : U256) (owner : A) (held : U256) :
    Exec (ERC4626 A × U256) := do
  let burnt ← offsetSharesUp assets s.mTotalSupply s.mVirtualShares held
  require (assets ≤ held) 23
  require (burnt ≤ balanceOf s.mBalances owner) 21
  require (shareSpendAllowed h s.mAllowances owner c.sender burnt = true) 22
  let t ← ERC4626Min.burnShares h s.toERC4626Min c owner
    (offsetSharesUp assets s.mTotalSupply s.mVirtualShares held)
  return ({ s with toERC4626Min := t }, burnt)

/-- `redeem` from the balance on: the rest of `read` and the phase `settle`. -/
def redeemSettle (s : ERC4626 A) (c : Ctx A) (shares : U256) (owner : A) (held : U256) :
    Exec (ERC4626 A × U256) := do
  let payout ← offsetAssetsDown shares s.mTotalSupply s.mVirtualShares held
  require (shares ≤ balanceOf s.mBalances owner) 21
  require (shareSpendAllowed h s.mAllowances owner c.sender shares = true) 22
  require (payout ≤ held) 23
  let t ← ERC4626Min.burnShares h s.toERC4626Min c owner (.ok shares)
  return ({ s with toERC4626Min := t }, payout)

/-! ### Routes -/

/-- `deposit`. -/
def deposit (w : World (ERC4626 A)) (assets : U256) (receiver : A) (pull : Reply) :
    Exec (World (ERC4626 A) × U256) := do
  require (receiver ≠ zeroAddress) 20
  let r ← pull assets
  let after ← add w.assets r.got
  let (s, issued) ← depositIssue w.vault receiver w.assets after r.ok
  return (⟨s, after⟩, issued)

/-- `mint`. -/
def mint (w : World (ERC4626 A)) (shares : U256) (receiver : A) (pull : Reply) :
    Exec (World (ERC4626 A) × U256) := do
  require (receiver ≠ zeroAddress) 20
  let cost ← mintCost w.vault shares w.assets
  let r ← pull cost
  let after ← add w.assets r.got
  let s ← mintIssue w.vault receiver shares w.assets cost after r.ok
  return (⟨s, after⟩, cost)

/-- `withdraw`. -/
def withdraw (w : World (ERC4626 A)) (c : Ctx A) (assets : U256) (receiver owner : A)
    (push : Reply) : Exec (World (ERC4626 A) × U256) := do
  require (receiver ≠ zeroAddress) 20
  require (owner ≠ zeroAddress) 20
  let (s, burnt) ← withdrawSettle h w.vault c assets owner w.assets
  let r ← push assets
  let left ← sendOut c receiver w.assets assets
  require (r.ok = true) 24
  return (⟨s, left⟩, burnt)

/-- `redeem`. -/
def redeem (w : World (ERC4626 A)) (c : Ctx A) (shares : U256) (receiver owner : A)
    (push : Reply) : Exec (World (ERC4626 A) × U256) := do
  require (receiver ≠ zeroAddress) 20
  require (owner ≠ zeroAddress) 20
  let (s, payout) ← redeemSettle h w.vault c shares owner w.assets
  let r ← push payout
  let left ← sendOut c receiver w.assets payout
  require (r.ok = true) 24
  return (⟨s, left⟩, payout)

def act (w : World (ERC4626 A)) : VaultAction A → Exec (World (ERC4626 A))
  | .call _ (.deposit assets receiver) reply => do return (← deposit w assets receiver reply).1
  | .call _ (.mint shares receiver) reply => do return (← mint w shares receiver reply).1
  | .call c (.withdraw assets receiver owner) reply => do
    return (← withdraw h w c assets receiver owner reply).1
  | .call c (.redeem shares receiver owner) reply => do
    return (← redeem h w c shares receiver owner reply).1
  | .call c (.share k) _ => do
    let t ← ERC4626Min.shareCall h w.vault.toERC4626Min c k
    return { w with vault := { w.vault with toERC4626Min := t } }
  | .donate amount => do
    let assets ← add w.assets amount
    return { w with assets := assets }

/-! ### Views -/

/-- `convertToShares` and `previewDeposit`. -/
def previewDeposit (w : World (ERC4626 A)) (assets : U256) : Exec U256 :=
  offsetSharesDown assets w.vault.mTotalSupply w.vault.mVirtualShares w.assets

/-- `convertToAssets` and `previewRedeem`. -/
def previewRedeem (w : World (ERC4626 A)) (shares : U256) : Exec U256 :=
  offsetAssetsDown shares w.vault.mTotalSupply w.vault.mVirtualShares w.assets

/-- `previewMint`. -/
def previewMint (w : World (ERC4626 A)) (shares : U256) : Exec U256 :=
  offsetAssetsUp shares w.vault.mTotalSupply w.vault.mVirtualShares w.assets

/-- `previewWithdraw`. -/
def previewWithdraw (w : World (ERC4626 A)) (assets : U256) : Exec U256 :=
  offsetSharesUp assets w.vault.mTotalSupply w.vault.mVirtualShares w.assets

/-- `maxWithdraw`. -/
def maxWithdraw (w : World (ERC4626 A)) (owner : A) : Exec U256 :=
  offsetAssetsDown (balanceOf w.vault.mBalances owner) w.vault.mTotalSupply
    w.vault.mVirtualShares w.assets

/-- `maxRedeem`. -/
def maxRedeem (w : World (ERC4626 A)) (owner : A) : U256 := balanceOf w.vault.mBalances owner

/-! ### What the segments do -/

section Segments

variable {h} {s s' : ERC4626 A} {c : Ctx A} {receiver owner : A} {n before after held : U256}

omit [Zero A] in
theorem depositIssue_ok {paid : Bool} (hd : depositIssue s receiver before after paid = .ok (s', n)) :
    paid = true ∧ before.toNat ≤ after.toNat ∧
      SumsFit s.mTotalSupply s.mVirtualShares before ∧
      n.toNat = (after.toNat - before.toNat) * (s.mTotalSupply.toNat + s.mVirtualShares.toNat) /
        (before.toNat + 1) ∧
      ∃ t, ERC4626Min.issueShares s.toERC4626Min receiver (.ok n) = .ok t ∧
        s' = { s with toERC4626Min := t } := by
  simp only [depositIssue, bind_eq_ok, require_eq_ok, pure_eq_ok, Except.ok.injEq,
    Prod.mk.injEq] at hd
  obtain ⟨-, hpaid, got, hgot, issued, hissued, t, ht, rfl, rfl⟩ := hd
  rw [hgot, ok_bind, hissued] at ht
  have hgv := sub_eq_ok.mp hgot
  obtain ⟨hfit, hn⟩ := offsetSharesDown_eq_ok.mp hissued
  refine ⟨hpaid, by omega, hfit, ?_, t, ht, rfl⟩
  rw [hn, ← hgv, Nat.add_sub_cancel]

omit [DecidableEq A] [Zero A] in
theorem mintCost_ok (hv : 0 < s.mVirtualShares.toNat) {shares : U256}
    (hm : mintCost s shares before = .ok n) :
    SumsFit s.mTotalSupply s.mVirtualShares before ∧
      n.toNat = (shares.toNat * (before.toNat + 1)) ⌈/⌉
        (s.mTotalSupply.toNat + s.mVirtualShares.toNat) :=
  (offsetAssetsUp_eq_ok hv).mp hm

omit [Zero A] in
theorem mintIssue_ok {shares cost : U256} {paid : Bool}
    (hm : mintIssue s receiver shares before cost after paid = .ok s') :
    paid = true ∧ before.toNat + cost.toNat ≤ after.toNat ∧
      ∃ t, ERC4626Min.issueShares s.toERC4626Min receiver (.ok shares) = .ok t ∧
        s' = { s with toERC4626Min := t } := by
  simp only [mintIssue, bind_eq_ok, require_eq_ok, pure_eq_ok, Except.ok.injEq] at hm
  obtain ⟨-, hpaid, got, hgot, -, hcost, t, ht, rfl⟩ := hm
  have hgv := sub_eq_ok.mp hgot
  rw [BitVec.le_def] at hcost
  exact ⟨hpaid, by omega, t, ht, rfl⟩

omit [Zero A] in
theorem withdrawSettle_eq_ok {assets : U256} :
    withdrawSettle h s c assets owner held = .ok (s', n) ↔
      SumsFit s.mTotalSupply s.mVirtualShares held ∧
      n.toNat = (assets.toNat * (s.mTotalSupply.toNat + s.mVirtualShares.toNat)) ⌈/⌉
        (held.toNat + 1) ∧
      assets.toNat ≤ held.toNat ∧ n ≤ balanceOf s.mBalances owner ∧
      shareSpendAllowed h s.mAllowances owner c.sender n = true ∧
      ∃ t, ERC4626Min.burnShares h s.toERC4626Min c owner (.ok n) = .ok t ∧
        s' = { s with toERC4626Min := t } := by
  simp only [withdrawSettle, bind_eq_ok, require_eq_ok, pure_eq_ok, Except.ok.injEq,
    Prod.mk.injEq]
  constructor
  · rintro ⟨burnt, hburnt, -, hheld, -, hbal, -, hspend, t, ht, rfl, rfl⟩
    rw [hburnt] at ht
    obtain ⟨hfit, hn⟩ := offsetSharesUp_eq_ok.mp hburnt
    exact ⟨hfit, hn, BitVec.le_def.mp hheld, hbal, hspend, t, ht, rfl⟩
  · rintro ⟨hfit, hn, hheld, hbal, hspend, t, ht, rfl⟩
    have hburnt := offsetSharesUp_eq_ok.mpr ⟨hfit, hn⟩
    rw [← hburnt] at ht
    exact ⟨n, hburnt, (), BitVec.le_def.mpr hheld, (), hbal, (), hspend, t, ht, rfl, rfl⟩

omit [Zero A] in
theorem redeemSettle_eq_ok (hv : 0 < s.mVirtualShares.toNat) {shares : U256} :
    redeemSettle h s c shares owner held = .ok (s', n) ↔
      SumsFit s.mTotalSupply s.mVirtualShares held ∧
      n.toNat = shares.toNat * (held.toNat + 1) /
        (s.mTotalSupply.toNat + s.mVirtualShares.toNat) ∧
      shares ≤ balanceOf s.mBalances owner ∧
      shareSpendAllowed h s.mAllowances owner c.sender shares = true ∧
      n.toNat ≤ held.toNat ∧
      ∃ t, ERC4626Min.burnShares h s.toERC4626Min c owner (.ok shares) = .ok t ∧
        s' = { s with toERC4626Min := t } := by
  simp only [redeemSettle, bind_eq_ok, require_eq_ok, pure_eq_ok, Except.ok.injEq,
    Prod.mk.injEq, offsetAssetsDown_eq_ok hv, BitVec.le_def (y := held)]
  constructor
  · rintro ⟨payout, ⟨hfit, hn⟩, -, hbal, -, hspend, -, hheld, t, ht, rfl, rfl⟩
    exact ⟨hfit, hn, hbal, hspend, hheld, t, ht, rfl⟩
  · rintro ⟨hfit, hn, hbal, hspend, hheld, t, ht, rfl⟩
    exact ⟨n, ⟨hfit, hn⟩, (), hbal, (), hspend, (), hheld, t, ht, rfl, rfl⟩

end Segments

/-! ### What an action does -/

section Actions

variable {h} {w w' : World (ERC4626 A)} {a : VaultAction A}

/-- `S`, `v` and `T`. -/
def supply (w : World (ERC4626 A)) : Nat := w.vault.mTotalSupply.toNat

def vshares (w : World (ERC4626 A)) : Nat := w.vault.mVirtualShares.toNat

def held (w : World (ERC4626 A)) : Nat := w.assets.toNat

/-- What a successful action did: issue shares, burn shares, run a share route, or
    take assets in.  The first two carry the bound their rounding gives. -/
inductive Did (h : Host A) (w : World (ERC4626 A)) : VaultAction A → World (ERC4626 A) → Prop
  | issue {c : Ctx A} {k : VaultCall A} {reply : Reply} {receiver : A} {n after : U256}
      {t : ERC4626Min A} (of : k.burnsOf = none)
      (issued : ERC4626Min.issueShares w.vault.toERC4626Min receiver (.ok n) = .ok t)
      (came : w.assets.toNat ≤ after.toNat)
      (bound : n.toNat * (held w + 1) ≤
        (after.toNat - w.assets.toNat) * (supply w + vshares w)) :
      Did h w (.call c k reply) ⟨{ w.vault with toERC4626Min := t }, after⟩
  | burn {c : Ctx A} {k : VaultCall A} {reply : Reply} {owner : A} {n left : U256} {paid : Nat}
      {t : ERC4626Min A} (of : k.burnsOf = some owner)
      (burnt : ERC4626Min.burnShares h w.vault.toERC4626Min c owner (.ok n) = .ok t)
      (allowed : shareSpendAllowed h w.vault.mAllowances owner c.sender n = true)
      (went : left.toNat + paid = w.assets.toNat)
      (bound : paid * (supply w + vshares w) ≤ n.toNat * (held w + 1)) :
      Did h w (.call c k reply) ⟨{ w.vault with toERC4626Min := t }, left⟩
  | share {c : Ctx A} {k : ShareCall A} {reply : Reply} {t : ERC4626Min A}
      (did : ERC4626Min.shareCall h w.vault.toERC4626Min c k = .ok t) :
      Did h w (.call c (.share k) reply) ⟨{ w.vault with toERC4626Min := t }, w.assets⟩
  | donate {amount assets : U256} (came : assets.toNat = w.assets.toNat + amount.toNat) :
      Did h w (.donate amount) ⟨w.vault, assets⟩

theorem did_of_act (hv : 0 < vshares w) (ha : act h w a = .ok w') : Did h w a w' := by
  cases a with
  | donate amount =>
    simp only [act, bind_eq_ok, pure_eq_ok, Except.ok.injEq] at ha
    obtain ⟨assets, hassets, rfl⟩ := ha
    exact .donate (add_eq_ok.mp hassets)
  | call c k reply =>
    cases k with
    | deposit assets receiver =>
      simp only [act, deposit, bind_eq_ok, require_eq_ok, pure_eq_ok, Except.ok.injEq] at ha
      obtain ⟨-, ⟨-, -, r, -, after, hafter, ⟨s, issued⟩, hissue, rfl⟩, rfl⟩ := ha
      obtain ⟨-, hle, -, hn, t, ht, rfl⟩ := depositIssue_ok hissue
      refine .issue rfl ht hle ?_
      rw [hn]
      exact Nat.div_mul_le_self _ _
    | mint shares receiver =>
      simp only [act, mint, bind_eq_ok, require_eq_ok, pure_eq_ok, Except.ok.injEq] at ha
      obtain ⟨-, ⟨-, -, cost, hcost, r, -, after, hafter, s, hissue, rfl⟩, rfl⟩ := ha
      obtain ⟨-, hle, t, ht, rfl⟩ := mintIssue_ok hissue
      obtain ⟨-, hcv⟩ := mintCost_ok hv hcost
      have hpos : 0 < w.vault.mTotalSupply.toNat + w.vault.mVirtualShares.toNat :=
        Nat.lt_of_lt_of_le hv (Nat.le_add_left _ _)
      refine .issue rfl ht (by omega) ?_
      -- the cost, rounded up, covers the shares, and at least the cost arrived
      have hceil := ceil_bound shares.toNat (w.assets.toNat + 1) hpos
      rw [← hcv] at hceil
      exact hceil.trans (Nat.mul_le_mul_right _ (by omega))
    | withdraw assets receiver owner =>
      simp only [act, withdraw, bind_eq_ok, require_eq_ok, pure_eq_ok, Except.ok.injEq] at ha
      obtain ⟨-, ⟨-, -, -, -, ⟨s, burnt⟩, hsettle, r, -, left, hleft, -, -, rfl⟩, rfl⟩ := ha
      obtain ⟨-, hn, -, -, hspend, t, ht, rfl⟩ := withdrawSettle_eq_ok.mp hsettle
      obtain ⟨paid, hpaid, hwent⟩ := went_of_sendOut hleft
      refine .burn rfl ht hspend hwent ((Nat.mul_le_mul_right _ hpaid).trans ?_)
      rw [hn]
      exact ceil_bound _ _ (Nat.succ_pos _)
    | redeem shares receiver owner =>
      simp only [act, redeem, bind_eq_ok, require_eq_ok, pure_eq_ok, Except.ok.injEq] at ha
      obtain ⟨-, ⟨-, -, -, -, ⟨s, payout⟩, hsettle, r, -, left, hleft, -, -, rfl⟩, rfl⟩ := ha
      obtain ⟨-, hn, -, hspend, -, t, ht, rfl⟩ := (redeemSettle_eq_ok hv).mp hsettle
      obtain ⟨paid, hpaid, hwent⟩ := went_of_sendOut hleft
      refine .burn rfl ht hspend hwent ((Nat.mul_le_mul_right _ hpaid).trans ?_)
      rw [hn]
      exact Nat.div_mul_le_self _ _
    | share k =>
      simp only [act, bind_eq_ok, pure_eq_ok, Except.ok.injEq] at ha
      obtain ⟨t, ht, rfl⟩ := ha
      exact .share ht

theorem vshares_of_did (hd : Did h w a w') : w'.vault.mVirtualShares = w.vault.mVirtualShares := by
  cases hd with
  | issue => rfl
  | burn => rfl
  | share => rfl
  | donate => rfl

end Actions

end ERC4626

end CambrianLang.Stdlib
