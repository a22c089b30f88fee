/-
  **Rounding division and powers of the EVM back end**
  (`codegen/solidity/core/pure.rs`).

  Unlike the Rust core these helpers use the textbook formulas under checked
  arithmetic: `a + b - 1` before the ceiling division, `a + b / 2` before the
  rounding one, an unconditional `base * base` in every round of the power, and
  `(1 << n) - 1` as the mask.  Each theorem gives the exact set of operands on
  which the formula does not revert.
-/
import CambrianLang.Solidity.MathHelpers

namespace CambrianLang.Solidity

open CheckedWord LongArithmetic

/-- `divc`. -/
def divc (a b : Word) : Option Word := do
  let s ← cadd a b
  let s ← csub s 1#256
  cdiv s b

/-- `divr`. -/
def divr (a b : Word) : Option Word := do
  let half ← cdiv b 2#256
  let s ← cadd a half
  cdiv s b

/-- `if (c) x = x * y;`. -/
def mulIf (c : Prop) [Decidable c] (x y : Word) : Option Word := if c then cmul x y else some x

/-- The `while (exp > 0)` loop of `_cam_pow`; the exponent has at most `fuel` bits. -/
def camPowLoop : Nat → Word → Word → Word → Option Word
  | 0, result, _, _ => some result
  | fuel + 1, result, base, exp =>
      if exp = 0#256 then some result
      else do
        let odd ← cmod exp 2#256
        let result ← mulIf (odd = 1#256) result base
        let base ← cmul base base
        let exp ← cdiv exp 2#256
        camPowLoop fuel result base exp

/-- `_cam_pow`. -/
def camPow (base exp : Word) : Option Word :=
  if exp = 0#256 then some 1#256 else camPowLoop 256 1#256 base exp

/-- `_cam_modpow2`; a shift by `n ≥ 256` leaves no bit. -/
def camModpow2 (x n : Word) : Option Word := do
  let mask ← csub (1#256 <<< n.toNat) 1#256
  return x &&& mask

/-! ### `divc` and `divr` -/

theorem divc_zero (a : Word) : divc a 0#256 = none := by
  simp only [divc, cdiv_zero, Option.bind_eq_bind, Option.bind_fun_none]

theorem divr_zero (a : Word) : divr a 0#256 = none := by
  simp only [divr, cdiv_zero, Option.bind_eq_bind, Option.bind_fun_none]

/-- `divc` is the ceiling as long as `a + b` fits. -/
theorem divc_of_lt {a b : Word} (hb : b ≠ 0#256) (h : a.toNat + b.toNat < 2 ^ 256) :
    divc a b = exact 256 ((a.toNat + b.toNat - 1) / b.toNat) := by
  have hpos := toNat_pos hb
  have hone : (1#256).toNat = 1 := by simp
  obtain ⟨s, hs, hsv⟩ := cadd_of_lt h
  obtain ⟨t, ht, htv⟩ := csub_of_le (x := s) (y := 1#256) (by omega)
  simp only [divc, hs, ht, Option.bind_eq_bind, Option.bind_some]
  rw [cdiv_eq hb, htv, hsv, hone]

theorem divc_of_le {a b : Word} (h : 2 ^ 256 ≤ a.toNat + b.toNat) : divc a b = none := by
  rw [divc, cadd_eq, exact_of_le h, Option.bind_eq_bind, Option.bind_none]

theorem cdiv_two (b : Word) : ∃ half, cdiv b 2#256 = some half ∧ half.toNat = b.toNat / 2 := by
  have htwo : (2#256).toNat = 2 := by simp
  have hlt : b.toNat / 2 < 2 ^ 256 := (Nat.div_le_self _ _).trans_lt b.isLt
  have hdiv := cdiv_eq (x := b) (y := 2#256) (by decide)
  rw [htwo, exact_of_lt hlt] at hdiv
  exact ⟨_, hdiv, by rw [BitVec.toNat_ofNat, Nat.mod_eq_of_lt hlt]⟩

theorem cmod_two (b : Word) : ∃ odd, cmod b 2#256 = some odd ∧ odd.toNat = b.toNat % 2 := by
  have htwo : (2#256).toNat = 2 := by simp
  have hlt : b.toNat % 2 < 2 ^ 256 := (Nat.mod_le _ _).trans_lt b.isLt
  have hmod := cmod_eq (x := b) (y := 2#256) (by decide)
  rw [htwo, exact_of_lt hlt] at hmod
  exact ⟨_, hmod, by rw [BitVec.toNat_ofNat, Nat.mod_eq_of_lt hlt]⟩

/-- `divr` is the rounded quotient as long as `a + b / 2` fits. -/
theorem divr_of_lt {a b : Word} (hb : b ≠ 0#256) (h : a.toNat + b.toNat / 2 < 2 ^ 256) :
    divr a b = exact 256 ((a.toNat + b.toNat / 2) / b.toNat) := by
  obtain ⟨half, hhalf, hhalfv⟩ := cdiv_two b
  obtain ⟨s, hs, hsv⟩ := cadd_of_lt (x := a) (y := half) (by rw [hhalfv]; exact h)
  simp only [divr, hhalf, hs, Option.bind_eq_bind, Option.bind_some]
  rw [cdiv_eq hb, hsv, hhalfv]

theorem divr_of_le {a b : Word} (h : 2 ^ 256 ≤ a.toNat + b.toNat / 2) : divr a b = none := by
  obtain ⟨half, hhalf, hhalfv⟩ := cdiv_two b
  simp only [divr, hhalf, Option.bind_eq_bind, Option.bind_some]
  rw [cadd_eq, hhalfv, exact_of_le h, Option.bind_none]

/-! ### `_cam_pow` and `_cam_modpow2` -/

/-- The square that the last round computes, one round earlier. -/
theorem sq_pow_size {e : Nat} (he : e ≠ 0) (b : Nat) :
    (b * b) ^ 2 ^ (e / 2).size = b ^ 2 ^ e.size := by
  rw [size_half he, ← Nat.pow_two, ← Nat.pow_mul, Nat.pow_succ, Nat.mul_comm]

/-- The updated accumulator of one round. -/
theorem mulIf_odd {odd result base : Word} {e : Nat} (hodd : odd.toNat = e % 2) :
    mulIf (odd = 1#256) result base =
      exact 256 (if e % 2 = 0 then result.toNat else result.toNat * base.toNat) := by
  have hone : (1#256).toNat = 1 := by simp
  unfold mulIf
  by_cases h : odd = 1#256
  · rw [h, hone] at hodd
    rw [if_pos h, if_neg (by omega), cmul_eq]
  · have hne : odd.toNat ≠ 1 := fun hcon => h (BitVec.eq_of_toNat_eq (by rw [hcon, hone]))
    rw [if_neg h, if_pos (by omega), exact_toNat]

/-- The loop squares the base once per exponent bit: it succeeds exactly when the
    last of these squares and the result fit. -/
theorem camPowLoop_eq : ∀ fuel (result base exp : Word), exp.toNat.size ≤ fuel →
    camPowLoop fuel result base exp =
      (exact 256 (base.toNat ^ 2 ^ exp.toNat.size)).bind fun _ =>
        exact 256 (result.toNat * base.toNat ^ exp.toNat) := by
  intro fuel
  induction fuel with
  | zero =>
    intro result base exp hsize
    have he : exp.toNat = 0 := Nat.size_eq_zero.mp (by omega)
    rw [he, Nat.size_zero, Nat.pow_zero, Nat.pow_one, Nat.pow_zero, Nat.mul_one, exact_toNat,
      exact_toNat, Option.bind_some, camPowLoop]
  | succ fuel ih =>
    intro result base exp hsize
    unfold camPowLoop
    by_cases he : exp = 0#256
    · have hev : exp.toNat = 0 := by rw [he]; simp
      rw [if_pos he, hev, Nat.size_zero, Nat.pow_zero, Nat.pow_one, Nat.pow_zero, Nat.mul_one,
        exact_toNat, exact_toNat, Option.bind_some]
    have hev := toNat_ne_zero he
    obtain ⟨odd, hodd, hoddv⟩ := cmod_two exp
    obtain ⟨exp', hexp, hexpv⟩ := cdiv_two exp
    have hsize' : exp'.toNat.size ≤ fuel := by
      have h := size_half hev
      rw [hexpv]
      omega
    simp only [if_neg he, hodd, hexp, Option.bind_eq_bind, Option.bind_some]
    rw [mulIf_odd hoddv, mul_pow_round, ← sq_pow_size hev]
    generalize hacc : (if exp.toNat % 2 = 0 then result.toNat else result.toNat * base.toNat) = acc
    by_cases hsq : base.toNat * base.toNat < 2 ^ 256
    · obtain ⟨base', hbase, hbasev⟩ := cmul_of_lt hsq
      simp only [hbase, Option.bind_some, ih _ base' exp' hsize', hbasev, hexpv]
      by_cases hfit : acc < 2 ^ 256
      · obtain ⟨accW, haccW⟩ : ∃ accW, exact 256 acc = some accW := ⟨_, exact_of_lt hfit⟩
        rw [haccW, Option.bind_some, exact_eq_some.mp haccW]
      · -- an accumulator that does not fit is a factor of the result
        have hbase0 : base.toNat ≠ 0 := by
          intro h
          have hres := result.isLt
          rw [h, Nat.mul_zero] at hacc
          split at hacc <;> omega
        have hle : acc ≤ acc * (base.toNat * base.toNat) ^ (exp.toNat / 2) :=
          Nat.le_mul_of_pos_right _ (Nat.pow_pos (Nat.mul_pos (by omega) (by omega)))
        rw [exact_of_le (Nat.not_lt.mp hfit), Option.bind_none,
          exact_of_le ((Nat.not_lt.mp hfit).trans hle), Option.bind_fun_none]
    · -- the first square already overflows, and the last one is at least as large
      have hle : base.toNat * base.toNat ≤
          (base.toNat * base.toNat) ^ 2 ^ (exp.toNat / 2).size :=
        self_le_pow (by positivity)
      rw [cmul_eq, exact_of_le (Nat.not_lt.mp hsq), exact_of_le ((Nat.not_lt.mp hsq).trans hle)]
      simp only [Option.bind_none, Option.bind_fun_none]

/-- **`_cam_pow` is exact while its last square fits**, and reverts otherwise. -/
theorem camPow_eq (base exp : Word) :
    camPow base exp = (exact 256 (base.toNat ^ 2 ^ exp.toNat.size)).bind fun _ =>
      exact 256 (base.toNat ^ exp.toNat) := by
  have hone : (1#256).toNat = 1 := by simp
  unfold camPow
  by_cases he : exp = 0#256
  · have hev : exp.toNat = 0 := by rw [he]; simp
    rw [if_pos he, hev, Nat.size_zero, Nat.pow_zero, Nat.pow_one, Nat.pow_zero, exact_toNat,
      Option.bind_some, eq_comm, exact_eq_some, hone]
  · rw [if_neg he, camPowLoop_eq 256 _ base exp (size_le_width exp), hone]
    simp only [Nat.one_mul]

theorem camModpow2_of_lt {x n : Word} (h : n.toNat < 256) :
    camModpow2 x n = exact 256 (x.toNat % 2 ^ n.toNat) := by
  have hpow : 2 ^ n.toNat < 2 ^ 256 := Nat.pow_lt_pow_right (by omega) h
  have hpos : 1 ≤ 2 ^ n.toNat := Nat.one_le_two_pow
  have hone : (1#256).toNat = 1 := by simp
  have hshl : (1#256 <<< n.toNat).toNat = 2 ^ n.toNat := one_shl_toNat hpow
  obtain ⟨mask, hmask, hmaskv⟩ := csub_of_le (x := 1#256 <<< n.toNat) (y := 1#256)
    (by rw [hshl, hone]; exact hpos)
  rw [camModpow2, hmask, Option.bind_eq_bind, Option.bind_some, Option.pure_def, eq_comm,
    exact_eq_some]
  exact toNat_and_mask (by rw [hmaskv, hshl, hone])

theorem camModpow2_of_le {x n : Word} (h : 256 ≤ n.toNat) : camModpow2 x n = none := by
  have hone : (1#256).toNat = 1 := by simp
  have hshl : (1#256 <<< n.toNat).toNat = 0 := by
    have hdvd : 2 ^ 256 ∣ 2 ^ n.toNat := Nat.pow_dvd_pow 2 h
    rw [toNat_shl, hone, Nat.one_mul, Nat.mod_eq_zero_of_dvd hdvd]
  have hnone : csub (1#256 <<< n.toNat) 1#256 = none := csub_eq_none.mpr (by rw [hshl, hone]; omega)
  rw [camModpow2, hnone, Option.bind_eq_bind, Option.bind_none]

end CambrianLang.Solidity
