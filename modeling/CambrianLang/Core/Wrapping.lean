/-
  **Addition, subtraction and multiplication of `U256`**, checked and wrapping
  (`cambrian-core/src/lib.rs`).

  The checked operators return the integer result or panic, the wrapping methods
  return it modulo `2 ^ 256`.  Both read the operands as `hi · 2^128 + lo`.
-/
import CambrianLang.Core.Wide

namespace CambrianLang.Core

open CheckedWord

namespace U256

/-- `U256::wrapping_add`. -/
def wrappingAdd (a b : U256) : U256 :=
  let (lo, carry) := overflowingAdd a.lo b.lo
  ⟨a.hi + b.hi + ofBool carry, lo⟩

/-- `U256::wrapping_sub`. -/
def wrappingSub (a b : U256) : U256 :=
  let (lo, borrow) := overflowingSub a.lo b.lo
  ⟨a.hi - b.hi - ofBool borrow, lo⟩

/-- `U256::wrapping_mul`; the sums of the widening product are checked ones. -/
def wrappingMul (a b : U256) : Option U256 := do
  let (resHi, resLo) ← u256WideningMulU128 a.lo b.lo
  let cross1 := a.hi * b.lo
  let cross2 := a.lo * b.hi
  return ⟨resHi + cross1 + cross2, resLo⟩

/-! ### The wrapping operations -/

theorem wrappingAdd_toNat (a b : U256) :
    (a.wrappingAdd b).toNat = (a.toNat + b.toNat) % 2 ^ 256 := by
  have hlo := overflowingAdd_toNat a.lo b.lo
  have hcarry := ofBool_toNat_le (overflowingAdd a.lo b.lo).2
  have hlt := (overflowingAdd a.lo b.lo).1.isLt
  simp only [wrappingAdd, toNat, BitVec.toNat_add]
  omega

theorem wrappingSub_toNat (a b : U256) :
    (a.wrappingSub b).toNat = (a.toNat + (2 ^ 256 - b.toNat)) % 2 ^ 256 := by
  have hlo := overflowingSub_toNat a.lo b.lo
  have hborrow := ofBool_toNat_le (overflowingSub a.lo b.lo).2
  have hlt := (overflowingSub a.lo b.lo).1.isLt
  have ha := a.hi.isLt
  have hb := b.hi.isLt
  have haLo := a.lo.isLt
  have hbLo := b.lo.isLt
  simp only [wrappingSub, toNat, BitVec.toNat_sub]
  omega

/-- Only the low limbs of the cross terms reach the result. -/
theorem wrappingMul_toNat (a b : U256) :
    ∃ v, a.wrappingMul b = some v ∧ v.toNat = a.toNat * b.toNat % 2 ^ 256 := by
  obtain ⟨resHi, resLo, hres, hresv⟩ := u256WideningMulU128_eq a.lo b.lo
  have hprod := LongArithmetic.mul_limbs a.hi.toNat a.lo.toNat b.hi.toNat b.lo.toNat (2 ^ 128)
  rw [← U256.toNat, ← U256.toNat, ← hresv] at hprod
  have hresLo := resLo.isLt
  have hcross1 : (a.hi * b.lo).toNat = a.hi.toNat * b.lo.toNat % 2 ^ 128 := BitVec.toNat_mul _ _
  have hcross2 : (a.lo * b.hi).toNat = a.lo.toNat * b.hi.toNat % 2 ^ 128 := BitVec.toNat_mul _ _
  refine ⟨⟨resHi + a.hi * b.lo + a.lo * b.hi, resLo⟩, ?_, ?_⟩
  · simp only [wrappingMul, hres, Option.bind_eq_bind, Option.bind_some, Option.pure_def]
  · have hval : (⟨resHi + a.hi * b.lo + a.lo * b.hi, resLo⟩ : U256).toNat =
        (resHi + a.hi * b.lo + a.lo * b.hi).toNat * 2 ^ 128 + resLo.toNat := rfl
    rw [BitVec.toNat_add, BitVec.toNat_add, hcross1, hcross2] at hval
    omega

/-! ### The integer results -/

/-- The integer when it is a `U256`, a panic when it is none. -/
def Computes (r : Option U256) (z : ℤ) : Prop :=
  (0 ≤ z ∧ z < 2 ^ 256 → ∃ v, r = some v ∧ (v.toNat : ℤ) = z) ∧
    (¬ (0 ≤ z ∧ z < 2 ^ 256) → r = none)

theorem computes_checked (n : ℕ) : Computes (checked n) n := by
  constructor
  · rintro ⟨-, hlt⟩
    obtain ⟨v, hv, hn⟩ := exists_checked (n := n) (by exact_mod_cast hlt)
    exact ⟨v, hv, by rw [hn]⟩
  · intro hout
    have hle : 2 ^ 256 ≤ n := by
      by_contra hlt
      exact hout ⟨Int.natCast_nonneg n, by exact_mod_cast Nat.not_le.mp hlt⟩
    exact checked_of_le hle

/-- The high limbs, or the borrow of the low ones, stop a subtraction below zero. -/
theorem sub_of_lt {a b : U256} (h : a.toNat < b.toNat) : a.sub b = none := by
  have hlo := overflowingSub_toNat a.lo b.lo
  have hlt := (overflowingSub a.lo b.lo).1.isLt
  have ha := a.lo.isLt
  have hb := b.lo.isLt
  unfold toNat at h
  by_cases hhi : a.hi.toNat < b.hi.toNat
  · simp [sub, csub_eq_none.mpr hhi]
  · obtain ⟨h1, hh1, hv1⟩ := csub_of_le (x := a.hi) (y := b.hi) (Nat.not_lt.mp hhi)
    have hunder : h1.toNat < (ofBool (overflowingSub a.lo b.lo).2).toNat := by omega
    simp [sub, hh1, csub_eq_none.mpr hunder]

theorem computes_sub (a b : U256) : Computes (a.sub b) (a.toNat - b.toNat) := by
  constructor
  · rintro ⟨hnonneg, -⟩
    have hle : b.toNat ≤ a.toNat := by omega
    obtain ⟨v, hv, hval⟩ := sub_of_le hle
    exact ⟨v, hv, by omega⟩
  · intro hout
    have hlt := a.toNat_lt
    have hbelow : a.toNat < b.toNat := by
      by_contra hle
      exact hout ⟨by omega, by omega⟩
    exact sub_of_lt hbelow

/-- **The arithmetic of `U256`**: the checked operators compute the integer result,
    the wrapping ones its residue, and the widening product is exact without an
    overflow on the way. -/
theorem arithmetic_exact (a b : U256) (x y : U128) :
    Computes (a.add b) (a.toNat + b.toNat) ∧
    Computes (a.sub b) (a.toNat - b.toNat) ∧
    Computes (a.mul b) (a.toNat * b.toNat) ∧
    ((a.wrappingAdd b).toNat : ℤ) = (a.toNat + b.toNat) % 2 ^ 256 ∧
    ((a.wrappingSub b).toNat : ℤ) = (a.toNat - b.toNat) % 2 ^ 256 ∧
    (∃ v, a.wrappingMul b = some v ∧ (v.toNat : ℤ) = a.toNat * b.toNat % 2 ^ 256) ∧
    ∃ h l, u256WideningMulU128 x y = some (h, l) ∧ h.toNat * 2 ^ 128 + l.toNat = x.toNat * y.toNat := by
  refine ⟨?_, computes_sub a b, ?_, ?_, ?_, ?_, u256WideningMulU128_eq x y⟩
  · rw [add_eq]
    exact_mod_cast computes_checked (a.toNat + b.toNat)
  · rw [mul_eq]
    exact_mod_cast computes_checked (a.toNat * b.toNat)
  · rw [wrappingAdd_toNat]
    exact_mod_cast rfl
  · have ha := a.toNat_lt
    have hb := b.toNat_lt
    rw [wrappingSub_toNat]
    omega
  · obtain ⟨v, hv, hval⟩ := wrappingMul_toNat a b
    exact ⟨v, hv, by rw [hval]; exact_mod_cast rfl⟩

end U256

end CambrianLang.Core
