/-
  **The loop of `u256_div_rem`, iteration by iteration** (`cambrian-core/src/lib.rs`).

  At the top of iteration `i` the divisor is `d · 2^i`, so the subtraction, the addition of the
  quotient bit and the shifts of that iteration are exact.  Only the halving behind the last
  iteration can drop a bit, and the loop does not read its result.
-/
import CambrianLang.Core.U256

namespace CambrianLang.Core

open LongArithmetic U256

/-! ### Shifts with the checks of the machine -/

/-- `<<` of `u128`, which panics on an amount of 128 or more. -/
def cshl (x : U128) (amount : ℕ) : Option U128 := if amount < 128 then some (x <<< amount) else none

/-- `>>` of `u128`, which panics on an amount of 128 or more. -/
def cshr (x : U128) (amount : ℕ) : Option U128 := if amount < 128 then some (x >>> amount) else none

/-- `-` of `u32`. -/
def csubU32 (a b : ℕ) : Option ℕ := if b ≤ a then some (a - b) else none

/-- `u256_shl`, with the checks of its operations. -/
def u256ShlChecked (v : U256) (shift : ℕ) : Option U256 :=
  if shift = 0 then some v
  else if 256 ≤ shift then some zero
  else if 128 ≤ shift then do
    let amount ← csubU32 shift 128
    let hi ← cshl v.lo amount
    return ⟨hi, 0⟩
  else do
    let kept ← cshl v.hi shift
    let amount ← csubU32 128 shift
    let moved ← cshr v.lo amount
    let lo ← cshl v.lo shift
    return ⟨kept ||| moved, lo⟩

/-- `u256_shr`, with the checks of its operations. -/
def u256ShrChecked (v : U256) (shift : ℕ) : Option U256 :=
  if shift = 0 then some v
  else if 256 ≤ shift then some zero
  else if 128 ≤ shift then do
    let amount ← csubU32 shift 128
    let lo ← cshr v.hi amount
    return ⟨0, lo⟩
  else do
    let hi ← cshr v.hi shift
    let kept ← cshr v.lo shift
    let amount ← csubU32 128 shift
    let moved ← cshl v.hi amount
    return ⟨hi, kept ||| moved⟩

/-- No amount is out of range. -/
theorem u256ShlChecked_eq (v : U256) (shift : ℕ) :
    u256ShlChecked v shift = some (u256Shl v shift) := by
  unfold u256ShlChecked u256Shl
  by_cases h0 : shift = 0
  · rw [if_pos h0, if_pos h0]
  by_cases h256 : 256 ≤ shift
  · rw [if_neg h0, if_neg h0, if_pos h256, if_pos h256]
  by_cases h128 : 128 ≤ shift
  · have hamount : shift - 128 < 128 := by omega
    simp [h0, h256, h128, csubU32, cshl, hamount]
  · have hshift : shift < 128 := by omega
    have hamount : 128 - shift < 128 := by omega
    simp [h0, h256, h128, csubU32, cshl, cshr, hshift, hshift.le, hamount]

theorem u256ShrChecked_eq (v : U256) (shift : ℕ) :
    u256ShrChecked v shift = some (u256Shr v shift) := by
  unfold u256ShrChecked u256Shr
  by_cases h0 : shift = 0
  · rw [if_pos h0, if_pos h0]
  by_cases h256 : 256 ≤ shift
  · rw [if_neg h0, if_neg h0, if_pos h256, if_pos h256]
  by_cases h128 : 128 ≤ shift
  · have hamount : shift - 128 < 128 := by omega
    simp [h0, h256, h128, csubU32, cshr, hamount]
  · have hshift : shift < 128 := by omega
    have hamount : 128 - shift < 128 := by omega
    simp [h0, h256, h128, csubU32, cshl, cshr, hshift, hshift.le, hamount]

/-! ### The iterations -/

/-- The variables of the loop at the top of iteration `i`. -/
def divRemAt (n d : U256) (shift i : ℕ) : Option DivRemState :=
  DivMachine.before divRemStep (i + 1) (shift - i) ⟨n, u256Shl d shift, zero⟩

/-- What iteration `i` computes, exactly. -/
structure IterationExact (d : U256) (i : ℕ) (s : DivRemState) : Prop where
  /-- Nothing of the divisor has been shifted out. -/
  divisor : s.divisor.toNat = d.toNat * 2 ^ i
  bit : (u256Shl one i).toNat = 2 ^ i
  sub : s.divisor.toNat ≤ s.rem.toNat →
    ∃ rem, s.rem.sub s.divisor = some rem ∧ rem.toNat = s.rem.toNat - s.divisor.toNat
  add : s.divisor.toNat ≤ s.rem.toNat →
    ∃ quot, s.quot.add (u256Shl one i) = some quot ∧ quot.toNat = s.quot.toNat + 2 ^ i
  amounts : u256ShlChecked one i = some (u256Shl one i) ∧
    u256ShrChecked s.divisor 1 = some (u256Shr s.divisor 1)
  /-- Halving drops nothing as long as another iteration follows. -/
  halve : 0 < i → (u256Shr s.divisor 1).toNat * 2 = s.divisor.toNat

/-- Two halves of a shifted divisor. -/
theorem halve_shifted (d : ℕ) {i : ℕ} (hi : 0 < i) : d * 2 ^ i / 2 ^ 1 * 2 = d * 2 ^ i := by
  obtain ⟨k, rfl⟩ : ∃ k, i = k + 1 := ⟨i - 1, by omega⟩
  have hpow : d * 2 ^ (k + 1) = d * 2 ^ k * 2 := by rw [Nat.pow_succ, Nat.mul_assoc]
  rw [hpow, Nat.pow_one, Nat.mul_div_cancel _ (by omega)]

/-- **Every iteration is reached and exact.** -/
theorem divRemAt_exact {n d : U256} (hd : d.toNat ≠ 0) (hle : d.toNat ≤ n.toNat) {i : ℕ}
    (hi : i ≤ absDiff n.leadingZeros d.leadingZeros) :
    ∃ s, divRemAt n d (absDiff n.leadingZeros d.leadingZeros) i = some s ∧ IterationExact d i s := by
  have hpos : 0 < d.toNat := Nat.pos_of_ne_zero hd
  obtain ⟨hshift, hshl, hbound⟩ := divRem_aligned hd hle
  generalize absDiff n.leadingZeros d.leadingZeros = shift at hi hshift hshl hbound
  have hsplit : i + 1 + (shift - i) = shift + 1 := by omega
  obtain ⟨s, hs, hinv, -, hquot, -⟩ := (divRemMachine d.toNat hpos).before_eq_some hpos (i + 1)
    (shift - i) ⟨n, u256Shl d shift, zero⟩ (by rw [hsplit]; exact divRemMachine_inv hpos hshl)
    (by rw [hsplit]; exact hbound) (divRem_fits n d.toNat)
  have hdivisor : s.divisor.toNat = d.toNat * 2 ^ i := hinv i rfl
  have hbit : (u256Shl one i).toNat = 2 ^ i :=
    u256Shl_one_toNat (Nat.pow_lt_pow_right (by omega) (by omega))
  refine ⟨s, hs, ⟨hdivisor, hbit, sub_of_le, ?_, ⟨u256ShlChecked_eq _ _, u256ShrChecked_eq _ _⟩, ?_⟩⟩
  · intro hsub
    -- the bit is part of the quotient of what is left, and the whole quotient fits
    have hdiv : 2 ^ i ≤ s.rem.toNat / d.toNat :=
      (Nat.le_div_iff_mul_le hpos).mpr (by rw [Nat.mul_comm, ← hdivisor]; exact hsub)
    have hfits := divRem_fits n d.toNat
    have htotal : s.quot.toNat + s.rem.toNat / d.toNat = zero.toNat + n.toNat / d.toNat := hquot
    obtain ⟨quot, hadd, hval⟩ := exists_checked (n := s.quot.toNat + 2 ^ i) (by omega)
    exact ⟨quot, by rw [add_eq, hbit, hadd], hval⟩
  · intro hlater
    rw [u256Shr_toNat, hdivisor, halve_shifted d.toNat hlater]

/-- **`u256_div_rem` divides**, and each operation of each iteration is exact: the halving of the
    divisor too, as long as another iteration follows it. -/
theorem u256DivRem_exact {n d : U256} (hd : d.toNat ≠ 0) :
    ∃ q r, u256DivRem n d = some (q, r) ∧ n.toNat = q.toNat * d.toNat + r.toNat ∧
      r.toNat < d.toNat ∧
      (d.toNat ≤ n.toNat →
        let shift := absDiff n.leadingZeros d.leadingZeros
        shift < 256 ∧ u256ShlChecked d shift = some (u256Shl d shift) ∧
          (u256Shl d shift).toNat = d.toNat * 2 ^ shift ∧
          ∀ i ≤ shift, ∃ s, divRemAt n d shift i = some s ∧ IterationExact d i s) := by
  obtain ⟨q, r, heq, hq, hr⟩ := u256DivRem_eq (n := n) hd
  refine ⟨q, r, heq, ?_, ?_, ?_⟩
  · rw [hq, hr, Nat.div_add_mod']
  · rw [hr]
    exact Nat.mod_lt _ (Nat.pos_of_ne_zero hd)
  · intro hle
    obtain ⟨hshift, hshl, -⟩ := divRem_aligned hd hle
    exact ⟨hshift, u256ShlChecked_eq _ _, hshl, fun i hi => divRemAt_exact hd hle hi⟩

/-- The division of 2¹²⁸ by 3. -/
theorem u256DivRem_exact_third :
    ∃ q r, u256DivRem ⟨1, 0⟩ ⟨0, 3⟩ = some (q, r) ∧ 2 ^ 128 = q.toNat * 3 + r.toNat ∧ r.toNat < 3 := by
  obtain ⟨q, r, heq, hn, hr, -⟩ := u256DivRem_exact (n := ⟨1, 0⟩) (d := ⟨0, 3⟩) (by decide)
  exact ⟨q, r, heq, hn, hr⟩

/-- Dividing 2¹²⁸ by 1, the halving behind the last iteration drops the only bit of the divisor. -/
theorem last_halving_drops_bit :
    ∃ s, divRemAt ⟨1, 0⟩ one (absDiff (U256.leadingZeros ⟨1, 0⟩) one.leadingZeros) 0 = some s ∧
      s.divisor.toNat = 1 ∧ (u256Shr s.divisor 1).toNat * 2 ≠ s.divisor.toNat := by
  obtain ⟨s, hs, hexact⟩ := divRemAt_exact (n := ⟨1, 0⟩) (d := one) (by decide) (by decide)
    (Nat.zero_le _)
  have hdivisor : s.divisor.toNat = 1 := hexact.divisor
  refine ⟨s, hs, hdivisor, ?_⟩
  rw [u256Shr_toNat, hdivisor]
  decide

end CambrianLang.Core
