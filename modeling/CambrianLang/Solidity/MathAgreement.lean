/-
  **The two implementations of `std::math` compared.**

  A program is simulated on the Rust core and deployed as Solidity.  The wide
  `muldiv` agrees on every operand; of the four rounding and power helpers the
  exact set of operands is given on which the emitted formula still computes what
  the core computes.
-/
import CambrianLang.Core.Math
import CambrianLang.Solidity.Rounding

namespace CambrianLang.Solidity

open CheckedWord

/-- A pair of core integers as Solidity returns it. -/
def wordPair (p : Core.U256 × Core.U256) : Word × Word := (p.1.toWord, p.2.toWord)

/-! ### Wide multiply-divide -/

theorem ofWord_toNat_ne_zero {z : Word} (hz : z ≠ 0#256) : (Core.U256.ofWord z).toNat ≠ 0 := by
  rw [Core.U256.toNat_ofWord]
  exact toNat_ne_zero hz

theorem core_camMuldiv_eq {x y z : Word} (hz : z ≠ 0#256) :
    (Core.camMuldiv (.ofWord x) (.ofWord y) (.ofWord z)).map Core.U256.toWord =
      exact 256 (x.toNat * y.toNat / z.toNat) := by
  rw [Core.camMuldiv_eq (ofWord_toNat_ne_zero hz), Core.U256.checked_map_toWord,
    Core.U256.toNat_ofWord, Core.U256.toNat_ofWord, Core.U256.toNat_ofWord]

theorem core_camMuldivmod_eq {x y z : Word} (hz : z ≠ 0#256) :
    (Core.camMuldivmod (.ofWord x) (.ofWord y) (.ofWord z)).map wordPair =
      (exact 256 (x.toNat * y.toNat / z.toNat)).bind fun q =>
        (exact 256 (x.toNat * y.toNat % z.toNat)).map fun r => (q, r) := by
  rw [Core.camMuldivmod_eq (ofWord_toNat_ne_zero hz), Core.U256.toNat_ofWord,
    Core.U256.toNat_ofWord, Core.U256.toNat_ofWord, ← Core.U256.checked_map_toWord,
    ← Core.U256.checked_map_toWord]
  cases Core.U256.checked (x.toNat * y.toNat / z.toNat) with
  | none => simp only [Option.bind_none, Option.map_none]
  | some q =>
    cases Core.U256.checked (x.toNat * y.toNat % z.toNat) with
    | none => simp only [Option.bind_some, Option.map_none, Option.map_some]
    | some r => simp only [Option.bind_some, Option.map_some, wordPair]

/-- **The emitted `muldiv` is exact and agrees with the core**: for a nonzero
    divisor the quotient (and remainder) when the quotient fits, a revert
    otherwise, in Solidity as in Rust; the limb product never reverts, and neither
    does the starting shift of the division nor any shift below it. -/
theorem muldiv_exact_and_agrees (x y z : Word) (hz : z ≠ 0#256) :
    camMuldiv x y z = exact 256 (x.toNat * y.toNat / z.toNat) ∧
    camMuldivmod x y z = (exact 256 (x.toNat * y.toNat / z.toNat)).map
      (fun q => (q, BitVec.ofNat 256 (x.toNat * y.toNat % z.toNat))) ∧
    (Core.camMuldiv (.ofWord x) (.ofWord y) (.ofWord z)).map Core.U256.toWord =
      camMuldiv x y z ∧
    (Core.camMuldivmod (.ofWord x) (.ofWord y) (.ofWord z)).map wordPair =
      camMuldivmod x y z ∧
    ∃ n, camU512Mul x y = some n ∧ wideToNat n = x.toNat * y.toNat ∧
      (n.1 ≠ 0#256 → ∃ nLz dLz i, camClz n.1 = some nLz ∧ camClz z = some dLz ∧
        camDivStart nLz dLz = some i ∧ wideToNat n < z.toNat * 2 ^ i.toNat ∧
        ∀ j < i.toNat, ∃ d, camU512ShlU256 z (BitVec.ofNat 256 j) = some d ∧
          wideToNat d = z.toNat * 2 ^ j) := by
  have hmod : x.toNat * y.toNat % z.toNat < 2 ^ 256 :=
    (Nat.mod_lt _ (toNat_pos hz)).trans z.isLt
  refine ⟨camMuldiv_eq hz, ?_, ?_, ?_, ?_⟩
  · rw [camMuldivmod_eq hz, exact_of_lt hmod]
    simp only [Option.map_eq_bind, Function.comp_def, Option.bind_some]
  · rw [core_camMuldiv_eq hz, camMuldiv_eq hz]
  · rw [core_camMuldivmod_eq hz, camMuldivmod_eq hz]
  · obtain ⟨n, hn, hnv⟩ := camU512Mul_eq x y
    refine ⟨n, hn, hnv, ?_⟩
    intro hhi
    obtain ⟨nLz, dLz, i, hnLz, hdLz, hstart, -, hbound, hshift⟩ := camDivStart_eq hhi hz
    refine ⟨nLz, dLz, i, hnLz, hdLz, hstart, hbound, ?_⟩
    intro j hj
    obtain ⟨hj512, hfit⟩ := hshift j hj
    exact camU512ShlU256_eq hj512 hfit

/-- The largest product, divided back. -/
theorem muldiv_max_max_max : camMuldiv maxWord maxWord maxWord = some maxWord := by
  rw [(muldiv_exact_and_agrees maxWord maxWord maxWord (by decide)).1, exact_eq_some]
  exact (Nat.mul_div_cancel _ (toNat_pos (by decide))).symm

/-! ### Rounding division and powers -/

/-- The four helpers, as functions of two operands. -/
inductive MathFn
  | divc
  | divr
  | pow
  | modpow2
deriving DecidableEq

/-- The emitted Solidity function. -/
def MathFn.solidity : MathFn → Word → Word → Option Word
  | .divc => Solidity.divc
  | .divr => Solidity.divr
  | .pow => camPow
  | .modpow2 => camModpow2

/-- What the program means by the call: the Rust core function, and `x mod 2^n`
    for `modpow2`, which the core has for `u128` only. -/
def MathFn.reference : MathFn → Word → Word → Option Word
  | .divc, x, y => (Core.camDivc (.ofWord x) (.ofWord y)).map Core.U256.toWord
  | .divr, x, y => (Core.camDivr (.ofWord x) (.ofWord y)).map Core.U256.toWord
  | .pow, x, y => (Core.camPow (.ofWord x) (.ofWord y)).map Core.U256.toWord
  | .modpow2, x, n => exact 256 (x.toNat % 2 ^ n.toNat)

/-- The operands on which the emitted formula is right: no intermediate sum, no
    square past the last exponent bit and no mask falls outside 256 bits, unless
    the result does as well. -/
def MathFn.InRange : MathFn → Word → Word → Prop
  | .divc, x, y => y = 0#256 ∨ x.toNat + y.toNat < 2 ^ 256
  | .divr, x, y => y = 0#256 ∨ x.toNat + y.toNat / 2 < 2 ^ 256
  | .pow, x, y => x.toNat ^ 2 ^ y.toNat.size < 2 ^ 256 ∨ 2 ^ 256 ≤ x.toNat ^ y.toNat
  | .modpow2, _, n => n.toNat < 256

theorem core_camDivc_eq {x y : Word} (hy : y ≠ 0#256) :
    (Core.camDivc (.ofWord x) (.ofWord y)).map Core.U256.toWord =
      exact 256 ((x.toNat + y.toNat - 1) / y.toNat) := by
  rw [Core.camDivc_eq (ofWord_toNat_ne_zero hy), Core.U256.checked_map_toWord,
    Core.U256.toNat_ofWord, Core.U256.toNat_ofWord]

theorem core_camDivr_eq {x y : Word} (hy : y ≠ 0#256) :
    (Core.camDivr (.ofWord x) (.ofWord y)).map Core.U256.toWord =
      exact 256 ((x.toNat + y.toNat / 2) / y.toNat) := by
  rw [Core.camDivr_eq (ofWord_toNat_ne_zero hy), Core.U256.checked_map_toWord,
    Core.U256.toNat_ofWord, Core.U256.toNat_ofWord]

theorem core_camPow_eq (x y : Word) :
    (Core.camPow (.ofWord x) (.ofWord y)).map Core.U256.toWord =
      exact 256 (x.toNat ^ y.toNat) := by
  rw [Core.camPow_eq, Core.U256.checked_map_toWord, Core.U256.toNat_ofWord,
    Core.U256.toNat_ofWord]

theorem ofWord_zero : Core.U256.ofWord 0#256 = Core.U256.zero :=
  Core.U256.toNat_injective (by rw [Core.U256.toNat_ofWord, Core.U256.toNat_zero]; simp)

/-- Rounding never leaves the word: the rounded quotient is at most the dividend. -/
theorem rounded_lt {x y : Word} {s : Nat} (hs : s < y.toNat) :
    (x.toNat + s) / y.toNat < 2 ^ 256 := by
  have hx := x.isLt
  have hdiv : (x.toNat + s) / y.toNat ≤ x.toNat := by
    apply Nat.le_of_lt_succ
    rw [Nat.div_lt_iff_lt_mul (by omega)]
    have hmul : x.toNat * 1 ≤ x.toNat * y.toNat := Nat.mul_le_mul_left _ (by omega)
    rw [Nat.succ_mul]
    omega
  exact hdiv.trans_lt hx

theorem divc_agrees_iff (x y : Word) :
    divc x y = (Core.camDivc (.ofWord x) (.ofWord y)).map Core.U256.toWord ↔
      y = 0#256 ∨ x.toNat + y.toNat < 2 ^ 256 := by
  by_cases hy : y = 0#256
  · subst hy
    simp only [divc_zero, ofWord_zero, Core.camDivc_zero, Option.map_none, true_or]
  rw [core_camDivc_eq hy]
  have hpos := toNat_pos hy
  by_cases hfit : x.toNat + y.toNat < 2 ^ 256
  · simp only [divc_of_lt hy hfit, hfit, or_true]
  · have hceil : (x.toNat + y.toNat - 1) / y.toNat < 2 ^ 256 := by
      rw [Nat.add_sub_assoc hpos]
      exact rounded_lt (by omega)
    simp only [divc_of_le (Nat.not_lt.mp hfit), exact_of_lt hceil, hy, hfit, or_self,
      reduceCtorEq]

theorem divr_agrees_iff (x y : Word) :
    divr x y = (Core.camDivr (.ofWord x) (.ofWord y)).map Core.U256.toWord ↔
      y = 0#256 ∨ x.toNat + y.toNat / 2 < 2 ^ 256 := by
  by_cases hy : y = 0#256
  · subst hy
    simp only [divr_zero, ofWord_zero, Core.camDivr_zero, Option.map_none, true_or]
  rw [core_camDivr_eq hy]
  have hpos := toNat_pos hy
  by_cases hfit : x.toNat + y.toNat / 2 < 2 ^ 256
  · simp only [divr_of_lt hy hfit, hfit, or_true]
  · have hround : (x.toNat + y.toNat / 2) / y.toNat < 2 ^ 256 :=
      rounded_lt (by omega)
    simp only [divr_of_le (Nat.not_lt.mp hfit), exact_of_lt hround, hy, hfit, or_self,
      reduceCtorEq]

theorem camPow_agrees_iff (x y : Word) :
    camPow x y = (Core.camPow (.ofWord x) (.ofWord y)).map Core.U256.toWord ↔
      x.toNat ^ 2 ^ y.toNat.size < 2 ^ 256 ∨ 2 ^ 256 ≤ x.toNat ^ y.toNat := by
  rw [core_camPow_eq, camPow_eq]
  by_cases hsq : x.toNat ^ 2 ^ y.toNat.size < 2 ^ 256
  · simp only [exact_of_lt hsq, Option.bind_some, hsq, true_or]
  · rw [exact_of_le (Nat.not_lt.mp hsq), Option.bind_none, eq_comm, exact_eq_none]
    simp only [hsq, false_or]

theorem camModpow2_agrees_iff (x n : Word) :
    camModpow2 x n = exact 256 (x.toNat % 2 ^ n.toNat) ↔ n.toNat < 256 := by
  by_cases hn : n.toNat < 256
  · simp only [camModpow2_of_lt hn, hn]
  · have hlt : x.toNat % 2 ^ n.toNat < 2 ^ 256 := (Nat.mod_le _ _).trans_lt x.isLt
    simp only [camModpow2_of_le (Nat.not_lt.mp hn), exact_of_lt hlt, hn, reduceCtorEq]

/-- **When the emitted helpers agree with the core**: the value and the revert of
    each are those of the reference exactly on the operands in range. -/
theorem mathFn_agrees_iff (f : MathFn) (x y : Word) :
    f.solidity x y = f.reference x y ↔ f.InRange x y := by
  cases f with
  | divc => exact divc_agrees_iff x y
  | divr => exact divr_agrees_iff x y
  | pow => exact camPow_agrees_iff x y
  | modpow2 => exact camModpow2_agrees_iff x y

/-- Representable results on which the emitted helpers revert: `divc(max, 2)`,
    `divr(max, 2)`, `pow(2^128, 1)` and `modpow2(max, 256)`. -/
theorem mathFn_reverts_on_representable :
    (MathFn.divc.solidity maxWord 2#256 = none ∧
      MathFn.divc.reference maxWord 2#256 = some (1#256 <<< 255)) ∧
    (MathFn.divr.solidity maxWord 2#256 = none ∧
      MathFn.divr.reference maxWord 2#256 = some (1#256 <<< 255)) ∧
    (MathFn.pow.solidity (1#256 <<< 128) 1#256 = none ∧
      MathFn.pow.reference (1#256 <<< 128) 1#256 = some (1#256 <<< 128)) ∧
    (MathFn.modpow2.solidity maxWord 256#256 = none ∧
      MathFn.modpow2.reference maxWord 256#256 = some maxWord) := by
  have htwo : (2#256).toNat = 2 := by simp
  have hone : (1#256).toNat = 1 := by simp
  have h256 : (256#256).toNat = 256 := by simp
  have htop : (1#256 <<< 255).toNat = 2 ^ 255 := one_shl_toNat (by norm_num)
  have hmid : (1#256 <<< 128).toNat = 2 ^ 128 := one_shl_toNat (by norm_num)
  have hmax := maxWord_toNat
  refine ⟨⟨divc_of_le (by omega), ?_⟩, ⟨divr_of_le (by omega), ?_⟩, ⟨?_, ?_⟩,
    camModpow2_of_le (by omega), ?_⟩
  · rw [MathFn.reference, core_camDivc_eq (by decide), exact_eq_some, htop, htwo, hmax]
    norm_num
  · rw [MathFn.reference, core_camDivr_eq (by decide), exact_eq_some, htop, htwo, hmax]
    norm_num
  · rw [MathFn.solidity, camPow_eq, hone, hmid, Nat.size_one, Nat.pow_one, ← Nat.pow_mul,
      exact_of_le (by norm_num), Option.bind_none]
  · rw [MathFn.reference, core_camPow_eq, exact_eq_some, hone, Nat.pow_one]
  · rw [MathFn.reference, exact_eq_some, h256, Nat.mod_eq_of_lt maxWord.isLt]

end CambrianLang.Solidity
