/-
  **The conversions and the share ledger of the vaults**
  (`stdlib/vault/erc4626-core.cam`).

  Both vaults keep the same ledger of shares and burn them the same way; they
  differ in the pair of conversions they price with.  The functions here are
  `stdlib/vault/erc4626-core.cam` and the text the two entities share.
-/
import CambrianLang.Lib.Ledger
import CambrianLang.Lib.SharePrice
import CambrianLang.Stdlib.Token.Core

namespace CambrianLang.Stdlib

open CheckedWord Trapping SharePrice

/-! ### Conversions -/

/-- `ratio_shares_down`. -/
def ratioSharesDown (assets supply total : U256) : Exec U256 :=
  if supply = 0#256 then .ok assets
  else if total = 0#256 then .ok assets
  else mulDiv assets supply total

/-- `ratio_shares_up`. -/
def ratioSharesUp (assets supply total : U256) : Exec U256 :=
  if supply = 0#256 then .ok assets
  else if total = 0#256 then .ok assets
  else mulDivUp assets supply total

/-- `ratio_assets_down`. -/
def ratioAssetsDown (shares supply total : U256) : Exec U256 :=
  if supply = 0#256 then .ok shares else mulDiv shares total supply

/-- `ratio_assets_up`. -/
def ratioAssetsUp (shares supply total : U256) : Exec U256 :=
  if supply = 0#256 then .ok shares else mulDivUp shares total supply

/-- `offset_shares_down`. -/
def offsetSharesDown (assets supply vshares total : U256) : Exec U256 := do
  let s ← add supply vshares
  let t ← add total 1#256
  mulDiv assets s t

/-- `offset_shares_up`. -/
def offsetSharesUp (assets supply vshares total : U256) : Exec U256 := do
  let s ← add supply vshares
  let t ← add total 1#256
  mulDivUp assets s t

/-- `offset_assets_down`. -/
def offsetAssetsDown (shares supply vshares total : U256) : Exec U256 := do
  let s ← add supply vshares
  let t ← add total 1#256
  mulDiv shares t s

/-- `offset_assets_up`. -/
def offsetAssetsUp (shares supply vshares total : U256) : Exec U256 := do
  let s ← add supply vshares
  let t ← add total 1#256
  mulDivUp shares t s

/-- `min_virtual_shares`. -/
def minVirtualShares : U256 := 1000#256

section Conversions

variable {x supply vshares total z : U256}

/-- The word of a number below `2^256`. -/
theorem exists_word {n : Nat} (hn : n < 2 ^ 256) : ∃ z : U256, z.toNat = n :=
  ⟨BitVec.ofNat 256 n, by rw [BitVec.toNat_ofNat, Nat.mod_eq_of_lt hn]⟩

/-- The two sums of an `offset` conversion are words. -/
def SumsFit (supply vshares total : U256) : Prop :=
  supply.toNat + vshares.toNat < 2 ^ 256 ∧ total.toNat + 1 < 2 ^ 256

instance : Decidable (SumsFit supply vshares total) := by
  unfold SumsFit
  infer_instance

theorem toNat_sums (h : SumsFit supply vshares total) :
    (supply + vshares : U256).toNat = supply.toNat + vshares.toNat ∧
      (total + 1#256 : U256).toNat = total.toNat + 1 :=
  ⟨BitVec.toNat_add_of_lt h.1, BitVec.toNat_add_of_lt h.2⟩

/-- An `offset` conversion takes the sums when they are words and else panics. -/
theorem sums_eq (f : U256 → U256 → Exec U256) (supply vshares total : U256) :
    (do let s ← add supply vshares; let t ← add total 1#256; f s t) =
      if SumsFit supply vshares total then f (supply + vshares) (total + 1#256)
      else .error .overflow := by
  have hone : (1#256 : U256).toNat = 1 := by simp
  by_cases hs : supply.toNat + vshares.toNat < 2 ^ 256
  swap
  · rw [add_of_le (by omega), error_bind, if_neg (fun h => hs h.1)]
  rw [add_of_lt hs, ok_bind]
  by_cases ht : total.toNat + 1 < 2 ^ 256
  · rw [add_of_lt (by omega), ok_bind, if_pos ⟨hs, ht⟩]
  · rw [add_of_le (by omega), error_bind, if_neg (fun h => ht h.2)]

/-- What the four conversions return. -/
theorem offsetSharesDown_eq_ok : offsetSharesDown x supply vshares total = .ok z ↔
    SumsFit supply vshares total ∧
      z.toNat = x.toNat * (supply.toNat + vshares.toNat) / (total.toNat + 1) := by
  rw [offsetSharesDown, sums_eq (mulDiv x)]
  split
  · next h =>
    obtain ⟨hs, ht⟩ := toNat_sums h
    simp [mulDiv_eq_ok, hs, ht, h]
  · next h => simp [h]

theorem offsetSharesUp_eq_ok : offsetSharesUp x supply vshares total = .ok z ↔
    SumsFit supply vshares total ∧
      z.toNat = (x.toNat * (supply.toNat + vshares.toNat)) ⌈/⌉ (total.toNat + 1) := by
  rw [offsetSharesUp, sums_eq (mulDivUp x)]
  split
  · next h =>
    obtain ⟨hs, ht⟩ := toNat_sums h
    simp [mulDivUp_eq_ok, hs, ht, h]
  · next h => simp [h]

theorem offsetAssetsDown_eq_ok (hv : 0 < vshares.toNat) :
    offsetAssetsDown x supply vshares total = .ok z ↔
      SumsFit supply vshares total ∧
        z.toNat = x.toNat * (total.toNat + 1) / (supply.toNat + vshares.toNat) := by
  rw [offsetAssetsDown, sums_eq (fun s t => mulDiv x t s)]
  split
  · next h =>
    obtain ⟨hs, ht⟩ := toNat_sums h
    have hpos : 0 < supply.toNat + vshares.toNat := by omega
    simp [mulDiv_eq_ok, hs, ht, h, hpos]
  · next h => simp [h]

theorem offsetAssetsUp_eq_ok (hv : 0 < vshares.toNat) :
    offsetAssetsUp x supply vshares total = .ok z ↔
      SumsFit supply vshares total ∧
        z.toNat = (x.toNat * (total.toNat + 1)) ⌈/⌉ (supply.toNat + vshares.toNat) := by
  rw [offsetAssetsUp, sums_eq (fun s t => mulDivUp x t s)]
  split
  · next h =>
    obtain ⟨hs, ht⟩ := toNat_sums h
    have hpos : 0 < supply.toNat + vshares.toNat := by omega
    simp [mulDivUp_eq_ok, hs, ht, h, hpos]
  · next h => simp [h]

/-- Shares of the supply are worth assets that are held, and withdrawing those takes no
    more than the shares. -/
theorem ratio_round_trip (hle : x.toNat ≤ supply.toNat)
    (hz : ratioAssetsDown x supply total = .ok z) :
    z.toNat ≤ total.toNat ∧ ∃ n, ratioSharesUp z supply total = .ok n ∧ n.toNat ≤ x.toNat := by
  rw [ratioAssetsDown] at hz
  split at hz
  · next hS =>
    -- no shares: the amount is zero
    cases hz
    subst hS
    have hzero : (0#256 : U256).toNat = 0 := by simp
    refine ⟨by omega, x, ?_, Nat.le_refl _⟩
    rw [ratioSharesUp, if_pos rfl]
  · next hS =>
    obtain ⟨hpos, hval⟩ := mulDiv_eq_ok.mp hz
    have hzT : z.toNat ≤ total.toNat := by
      rw [hval]
      apply Nat.div_le_of_le_mul
      exact Nat.mul_le_mul_right _ hle
    refine ⟨hzT, ?_⟩
    by_cases hT : total = 0#256
    · subst hT
      have hzero : (0#256 : U256).toNat = 0 := by simp
      refine ⟨z, ?_, by omega⟩
      rw [ratioSharesUp, if_neg hS, if_pos rfl]
    · have hTpos : 0 < total.toNat := toNat_pos hT
      have hceil := ceilDiv_floor_le x.toNat supply.toNat hTpos
      rw [← hval] at hceil
      obtain ⟨n, hn⟩ : ∃ n : U256,
          n.toNat = (z.toNat * supply.toNat) ⌈/⌉ total.toNat :=
        exists_word (hceil.trans_lt x.isLt)
      refine ⟨n, ?_, hn ▸ hceil⟩
      rw [ratioSharesUp, if_neg hS, if_neg hT]
      exact mulDivUp_eq_ok.mpr ⟨hTpos, hn⟩

theorem offset_round_trip (hv : 0 < vshares.toNat) (hle : x.toNat ≤ supply.toNat)
    (hz : offsetAssetsDown x supply vshares total = .ok z) :
    z.toNat ≤ total.toNat ∧
      ∃ n, offsetSharesUp z supply vshares total = .ok n ∧ n.toNat ≤ x.toNat := by
  obtain ⟨hfit, hval⟩ := (offsetAssetsDown_eq_ok hv).mp hz
  have hceil := ceilDiv_floor_le x.toNat (supply.toNat + vshares.toNat) (Nat.succ_pos total.toNat)
  rw [Nat.succ_eq_add_one, ← hval] at hceil
  obtain ⟨n, hn⟩ := exists_word (hceil.trans_lt x.isLt)
  refine ⟨?_, n, offsetSharesUp_eq_ok.mpr ⟨hfit, hn⟩, hn ▸ hceil⟩
  rw [hval]
  apply payout_le
  omega

/-- Shares of the supply have a price. -/
theorem ratioAssetsDown_isOk (total : U256) (hle : x.toNat ≤ supply.toNat) :
    ∃ z, ratioAssetsDown x supply total = .ok z := by
  rw [ratioAssetsDown]
  split
  · exact ⟨x, rfl⟩
  · next hS =>
    have hpos : 0 < supply.toNat := toNat_pos hS
    have hdiv : x.toNat * total.toNat / supply.toNat ≤ total.toNat := by
      apply Nat.div_le_of_le_mul
      exact Nat.mul_le_mul_right _ hle
    obtain ⟨z, hz⟩ := exists_word (hdiv.trans_lt total.isLt)
    exact ⟨z, mulDiv_eq_ok.mpr ⟨hpos, hz⟩⟩

/-- A price that cannot be told overflows. -/
theorem ratioAssetsDown_error {e : Revert} (he : ratioAssetsDown x supply total = .error e) :
    e = .overflow := by
  rw [ratioAssetsDown] at he
  split at he
  · cases he
  · next hS =>
    rw [mulDiv_eq, if_neg hS] at he
    split at he
    · cases he
    · cases he
      rfl

theorem offsetAssetsDown_error {e : Revert} (hv : 0 < vshares.toNat)
    (he : offsetAssetsDown x supply vshares total = .error e) : e = .overflow := by
  rw [offsetAssetsDown, sums_eq (fun s t => mulDiv x t s)] at he
  split at he
  · next hfit =>
    have hne : supply + vshares ≠ 0#256 := by
      intro hzero
      have hsum := (toNat_sums hfit).1
      rw [hzero] at hsum
      simp at hsum
      omega
    rw [mulDiv_eq, if_neg hne] at he
    split at he
    · cases he
    · cases he
      rfl
  · cases he
    rfl

end Conversions

/-! ### Share allowances -/

section Allowances

variable {A : Type} [DecidableEq A] (h : Host A)

/-- `share_spend_allowed`. -/
def shareSpendAllowed (allowances : U256 → U256) (owner spender : A) (shares : U256) : Bool :=
  if owner = spender then true else decide (shares ≤ allowanceOf h allowances owner spender)

/-- `share_allowance_after_burn`. -/
def shareAllowanceAfterBurn (allowances : U256 → U256) (owner spender : A) (shares : U256) :
    Exec U256 :=
  let prev := allowanceOf h allowances owner spender
  if owner = spender then .ok prev else allowanceAfterSpend prev shares

end Allowances

end CambrianLang.Stdlib
