/-
  **Newton's iteration: exact division and square roots.**

  A product `q · c` known only modulo `2^w` determines `q` once the power of two
  in `c` is taken out: what is left of `c` is odd, and an odd number has an
  inverse modulo `2^w`.  The three parts of that argument:

    * Newton's iteration `x ↦ x (2 - d x)` squares the error `1 - d x` in any
      commutative ring (`one_sub_mul_newton`);
    * the seed `3d xor 2` has an error divisible by `16` when `d` is odd;
    * `x &&& -x` is the largest power of two that divides `x`.

  For the integer square root a step from at or above the root stays there, and from
  above it the distance is halved: a divisor above the root has a quotient at or below it.
-/
import CambrianLang.Lib.CheckedWord
import Mathlib.Data.BitVec
import Mathlib.Data.Nat.Factorization.Basic

namespace CambrianLang.ModularInverse

/-! ### Newton's iteration -/

section Newton

variable {R : Type} [CommRing R]

/-- One step towards the inverse of `d`. -/
def newton (d x : R) : R := x * (2 - d * x)

/-- A step squares the error. -/
theorem one_sub_mul_newton (d x : R) : 1 - d * newton d x = (1 - d * x) ^ 2 := by
  unfold newton
  ring

theorem one_sub_mul_iterate_newton (d x : R) (n : Nat) :
    1 - d * (newton d)^[n] x = (1 - d * x) ^ 2 ^ n := by
  induction n generalizing x with
  | zero => simp
  | succ n ih =>
    rw [Function.iterate_succ_apply, ih, one_sub_mul_newton, ← pow_mul, Nat.pow_succ']

/-- Enough steps from a seed whose error is nilpotent give the inverse. -/
theorem mul_iterate_newton {d x : R} {n : Nat} (h : (1 - d * x) ^ 2 ^ n = 0) :
    d * (newton d)^[n] x = 1 := by
  have herr := one_sub_mul_iterate_newton d x n
  rw [h, sub_eq_zero] at herr
  exact herr.symm

end Newton

/-! ### The seed -/

variable {w : Nat}

/-- A word whose low `k` bits vanish is a multiple of `2^k`. -/
theorem eq_two_pow_mul {x : BitVec w} {k : Nat} (h : x.setWidth k = 0#k) :
    ∃ y : BitVec w, x = BitVec.ofNat w (2 ^ k) * y := by
  have hmod : x.toNat % 2 ^ k = 0 := by
    have hnat := congrArg BitVec.toNat h
    rwa [BitVec.toNat_setWidth] at hnat
  refine ⟨BitVec.ofNat w (x.toNat / 2 ^ k), ?_⟩
  rw [← BitVec.ofNat_mul, Nat.mul_div_cancel' (Nat.dvd_of_mod_eq_zero hmod)]
  simp

/-- Four bits of the seed are right: checked on the sixteen residues. -/
theorem seed_residue : ∀ d : BitVec 4, d.getLsbD 0 = true → 1 - d * (3 * d ^^^ 2) = 0 := by
  decide

theorem seed_error {d : BitVec w} (hw : 4 ≤ w) (hodd : d.getLsbD 0 = true) :
    ∃ y : BitVec w, 1 - d * (3 * d ^^^ 2) = BitVec.ofNat w 16 * y := by
  apply eq_two_pow_mul (k := 4)
  have hlow := seed_residue (d.setWidth 4) (by simpa using hodd)
  refine Eq.trans ?_ hlow
  have hlit : ∀ n : Nat, (BitVec.ofNat w n).setWidth 4 = BitVec.ofNat 4 n := by
    intro n
    apply BitVec.eq_of_toNat_eq
    rw [BitVec.toNat_setWidth, BitVec.toNat_ofNat, BitVec.toNat_ofNat]
    exact Nat.mod_mod_of_dvd n (Nat.pow_dvd_pow 2 hw)
  have h1 : (1 : BitVec w).setWidth 4 = 1 := hlit 1
  have h2 : (2 : BitVec w).setWidth 4 = 2 := hlit 2
  have h3 : (3 : BitVec w).setWidth 4 = 3 := hlit 3
  rw [sub_eq_add_neg, sub_eq_add_neg, BitVec.setWidth_add _ _ hw, BitVec.setWidth_neg_of_le hw,
    BitVec.setWidth_mul _ _ hw, BitVec.setWidth_xor, BitVec.setWidth_mul _ _ hw, h1, h2, h3]

/-- **The inverse of an odd word**: `n` steps are enough for `4 · 2^n` bits. -/
theorem mul_newton_seed {d : BitVec w} {n : Nat} (hw : 4 ≤ w) (hn : w ≤ 4 * 2 ^ n)
    (hodd : d.getLsbD 0 = true) : d * (newton d)^[n] (3 * d ^^^ 2) = 1 := by
  apply mul_iterate_newton
  obtain ⟨y, hy⟩ := seed_error hw hodd
  have hzero : BitVec.ofNat w 16 ^ 2 ^ n = 0 := by
    have hpow : (16 : Nat) ^ 2 ^ n = 2 ^ w * 2 ^ (4 * 2 ^ n - w) := by
      rw [← Nat.pow_add, Nat.add_sub_cancel' hn, Nat.pow_mul]
    have hcast : BitVec.ofNat w 16 ^ 2 ^ n = BitVec.ofNat w (16 ^ 2 ^ n) := by
      generalize 2 ^ n = m
      induction m with
      | zero => rfl
      | succ m ih => rw [pow_succ, ih, Nat.pow_succ, BitVec.ofNat_mul]
    rw [hcast, hpow]
    apply BitVec.eq_of_toNat_eq
    simp
  rw [hy, mul_pow, hzero, zero_mul]

/-! ### The power of two in a word -/

/-- A nonzero word is an odd multiple of a power of two. -/
theorem exists_odd_part {x : BitVec w} (hx : x ≠ 0#w) :
    ∃ k m, k < w ∧ m % 2 = 1 ∧ x.toNat = 2 ^ k * m := by
  obtain ⟨k, m, hm, heq⟩ := Nat.exists_eq_two_pow_mul_odd (CheckedWord.toNat_ne_zero hx)
  refine ⟨k, m, ?_, Nat.odd_iff.mp hm, heq⟩
  have hlt := x.isLt
  rw [heq] at hlt
  have hpow : 2 ^ k < 2 ^ w := (Nat.le_mul_of_pos_right _ hm.pos).trans_lt hlt
  exact (Nat.pow_lt_pow_iff_right (by omega)).mp hpow

/-- The lowest set bit of a word is the power of two that divides it. -/
theorem and_neg_eq_twoPow {x : BitVec w} {k m : Nat} (hm : m % 2 = 1)
    (heq : x.toNat = 2 ^ k * m) : x &&& -x = BitVec.twoPow w k := by
  have hbit : ∀ i, x.getLsbD i = (decide (k ≤ i) && m.testBit (i - k)) := by
    intro i
    rw [BitVec.getLsbD, heq, Nat.mul_comm, Nat.testBit_mul_two_pow]
  apply BitVec.eq_of_getLsbD_eq
  intro i hi
  rw [BitVec.getLsbD_and, BitVec.getLsbD_neg, BitVec.getLsbD_twoPow, hbit i]
  rcases Nat.lt_trichotomy i k with hik | rfl | hik
  · have hne : k ≠ i := by omega
    simp [hne, Nat.not_le.mpr hik]
  · -- no bit below the lowest one
    have hnone : ¬∃ j, j < i ∧ x.getLsbD j = true := by
      rintro ⟨j, hj, hset⟩
      rw [hbit j] at hset
      simp [Nat.not_le.mpr hj] at hset
    simp [hi, hm, hnone]
  · have hsome : ∃ j, j < i ∧ x.getLsbD j = true := ⟨k, hik, by rw [hbit k]; simp [hm]⟩
    have hne : k ≠ i := by omega
    simp [hi, hsome, hne]

end CambrianLang.ModularInverse

namespace CambrianLang.NewtonRoot

/-- The mean of `r` and `y / r`. -/
def newtonStep (y r : Nat) : Nat := (r + y / r) / 2

variable {y r : Nat}

/-- The mean of a number and its cofactor is at or above the root. -/
theorem sqrt_le_newtonStep (hr : 0 < r) : Nat.sqrt y ≤ newtonStep y r := by
  have hquot : y < r * (y / r + 1) := Nat.lt_mul_div_succ y hr
  have hroot : Nat.sqrt y * Nat.sqrt y ≤ y := Nat.sqrt_le y
  rw [newtonStep, Nat.le_div_iff_mul_le (by decide)]
  by_contra hlt
  -- the sum would be at most `2 √y`, and the product at most `y`
  have hsum : r + (y / r + 1) ≤ Nat.sqrt y * 2 := by omega
  have hprod : 4 * r * (y / r + 1) ≤ (Nat.sqrt y * 2) ^ 2 :=
    (four_mul_le_sq_add r (y / r + 1)).trans (Nat.pow_le_pow_left hsum 2)
  nlinarith

/-- A divisor above the root has a quotient at or below it. -/
theorem div_le_sqrt (hr : Nat.sqrt y < r) : y / r ≤ Nat.sqrt y := by
  rw [← Nat.lt_succ_iff, Nat.div_lt_iff_lt_mul (by omega)]
  calc y < (Nat.sqrt y + 1) * (Nat.sqrt y + 1) := Nat.lt_succ_sqrt y
    _ ≤ (Nat.sqrt y + 1) * r := Nat.mul_le_mul_left _ hr

/-- The distance to the root is halved. -/
theorem newtonStep_sub_le (hr : Nat.sqrt y < r) :
    newtonStep y r - Nat.sqrt y ≤ (r - Nat.sqrt y) / 2 := by
  have hquot := div_le_sqrt hr
  rw [newtonStep]
  omega

/-- A quotient by a number at or above the root is at most two above the root. -/
theorem div_le_sqrt_add_two (hy : 0 < y) (hr : Nat.sqrt y ≤ r) : y / r ≤ Nat.sqrt y + 2 := by
  have hpos : 0 < Nat.sqrt y := Nat.sqrt_pos.mpr hy
  have hlt : y < (Nat.sqrt y + 1) * (Nat.sqrt y + 1) := Nat.lt_succ_sqrt y
  calc y / r ≤ y / Nat.sqrt y := Nat.div_le_div_left hr hpos
    _ ≤ Nat.sqrt y + 2 := by
      rw [← Nat.lt_succ_iff, Nat.div_lt_iff_lt_mul hpos]
      nlinarith

/-- The seed `y / 2 + 1` is at or above the root. -/
theorem sqrt_le_half (y : Nat) : Nat.sqrt y ≤ y / 2 + 1 := by
  have hroot : Nat.sqrt y * Nat.sqrt y ≤ y := Nat.sqrt_le y
  by_contra hlt
  nlinarith [Nat.div_add_mod y 2, Nat.mod_lt y (show 0 < 2 by decide)]

end CambrianLang.NewtonRoot
