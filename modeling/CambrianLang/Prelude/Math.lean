/-
  **`std::math` in the vendored Lean prelude**
  (`assets/lean-prelude/Cambrian/Core.lean`).

  A generated Lean project computes with `BitVec n`, whose sums and products wrap
  modulo `2 ^ n`.  The prelude writes the rounding formulas directly on these
  words, so an intermediate that does not fit is cut before the division.  The
  file compares each function with the exact rational value it stands for and
  gives the operands on which the two are the same number.
-/
import Mathlib.Algebra.Order.Floor.Semifield
import Mathlib.Data.Rat.Floor
import CambrianLang.Lib.CheckedWord

namespace CambrianLang.Prelude

open CheckedWord

/-- Throw codes raised from routes. -/
inductive ThrowCode
  | ofNat (n : Nat)
deriving DecidableEq

/-- Result type for routes that can fail. -/
abbrev RouteResult (α : Type) : Type := Except ThrowCode α

variable {n : Nat}

/-- Ceiling division by zero is Panic `0x12`. -/
def checkedDivc (x y : BitVec n) : RouteResult (BitVec n) :=
  if y = 0#n then Except.error (ThrowCode.ofNat 0x12) else Except.ok ((x + y - 1#n) / y)

def checkedDivr (x y : BitVec n) : RouteResult (BitVec n) :=
  if y = 0#n then Except.error (ThrowCode.ofNat 0x12) else Except.ok ((x + y / 2#n) / y)

def checkedMuldiv (x y z : BitVec n) : RouteResult (BitVec n) :=
  if z = 0#n then Except.error (ThrowCode.ofNat 0x12) else Except.ok (x * y / z)

def powBits : BitVec n → Nat → BitVec n
  | _, 0 => 1#n
  | base, exp + 1 => base * powBits base exp

def pow (base exp : BitVec n) : BitVec n := powBits base exp.toNat

def muldiv (x y z : BitVec n) : BitVec n := x * y / z

def divc (x y : BitVec n) : BitVec n := (x + y - 1#n) / y

def divr (x y : BitVec n) : BitVec n := (x + y / 2#n) / y

/-! ### The calls and their exact values -/

/-- A call of one of the seven functions. -/
inductive MathCall (n : Nat)
  | muldiv (x y z : BitVec n)
  | checkedMuldiv (x y z : BitVec n)
  | divc (x y : BitVec n)
  | checkedDivc (x y : BitVec n)
  | divr (x y : BitVec n)
  | checkedDivr (x y : BitVec n)
  | pow (base exp : BitVec n)
deriving DecidableEq

/-- What the prelude computes; the unchecked functions are total. -/
def MathCall.result : MathCall n → RouteResult (BitVec n)
  | .muldiv x y z => Except.ok (Prelude.muldiv x y z)
  | .checkedMuldiv x y z => Prelude.checkedMuldiv x y z
  | .divc x y => Except.ok (Prelude.divc x y)
  | .checkedDivc x y => Prelude.checkedDivc x y
  | .divr x y => Except.ok (Prelude.divr x y)
  | .checkedDivr x y => Prelude.checkedDivr x y
  | .pow base exp => Except.ok (Prelude.pow base exp)

/-- The variants that report an error. -/
def MathCall.isChecked : MathCall n → Bool
  | .checkedMuldiv .. | .checkedDivc .. | .checkedDivr .. => true
  | _ => false

/-- The exact value: the floor of the wide quotient, the ceiling, the nearest
    integer (halves up), the power. -/
def MathCall.exactValue : MathCall n → Nat
  | .muldiv x y z | .checkedMuldiv x y z => ⌊(x.toNat * y.toNat : ℚ) / z.toNat⌋₊
  | .divc x y | .checkedDivc x y => ⌈(x.toNat : ℚ) / y.toNat⌉₊
  | .divr x y | .checkedDivr x y => ⌊(x.toNat : ℚ) / y.toNat + 1 / 2⌋₊
  | .pow base exp => base.toNat ^ exp.toNat

/-- The divisor of a call is not zero; a power has none. -/
def MathCall.DivisorNonzero : MathCall n → Prop
  | .muldiv _ _ z | .checkedMuldiv _ _ z => z ≠ 0#n
  | .divc _ y | .checkedDivc _ y | .divr _ y | .checkedDivr _ y => y ≠ 0#n
  | .pow .. => True

/-- The call means its exact value: that value when it is representable, and from
    a checked variant an error when it is not. -/
def MathCall.Faithful (c : MathCall n) : Prop :=
  (c.exactValue < 2 ^ n → c.result = Except.ok (BitVec.ofNat n c.exactValue)) ∧
    (c.isChecked → 2 ^ n ≤ c.exactValue → ∃ e, c.result = Except.error e)

/-- The operands whose intermediate sum or product fits the width.  The unchecked
    `muldiv` owes nothing when the quotient itself does not fit. -/
def MathCall.InRange : MathCall n → Prop
  | .muldiv x y z => x.toNat * y.toNat < 2 ^ n ∨ 2 ^ n ≤ x.toNat * y.toNat / z.toNat
  | .checkedMuldiv x y _ => x.toNat * y.toNat < 2 ^ n
  | .divc x y | .checkedDivc x y => x.toNat + y.toNat ≤ 2 ^ n
  | .divr x y | .checkedDivr x y => x.toNat + y.toNat / 2 < 2 ^ n
  | .pow .. => True

/-! ### Exact values as divisions of natural numbers -/

theorem floor_mul_div (x y z : Nat) : ⌊(x * y : ℚ) / z⌋₊ = x * y / z := by
  rw [← Nat.cast_mul, Nat.floor_div_eq_div]

theorem ceil_div (x : Nat) {y : Nat} (hy : 0 < y) : ⌈(x : ℚ) / y⌉₊ = (x + y - 1) / y := by
  have hy' : (0 : ℚ) < y := by exact_mod_cast hy
  apply le_antisymm
  · rw [Nat.ceil_le, div_le_iff₀ hy']
    have hmod := Nat.div_add_mod (x + y - 1) y
    have hlt := Nat.mod_lt (x + y - 1) hy
    have hle : x ≤ (x + y - 1) / y * y := by
      rw [Nat.mul_comm]
      omega
    exact_mod_cast hle
  · rw [Nat.div_le_iff_le_mul_add_pred hy]
    have hle := Nat.le_ceil ((x : ℚ) / y)
    rw [div_le_iff₀ hy'] at hle
    have hnat : x ≤ ⌈(x : ℚ) / y⌉₊ * y := by exact_mod_cast hle
    rw [Nat.mul_comm] at hnat
    omega

theorem floor_div_add_half (x : Nat) {y : Nat} (hy : 0 < y) :
    ⌊(x : ℚ) / y + 1 / 2⌋₊ = (x + y / 2) / y := by
  have hy' : (y : ℚ) ≠ 0 := by exact_mod_cast hy.ne'
  have hsum : (x : ℚ) / y + 1 / 2 = ((2 * x + y : Nat) : ℚ) / ((2 * y : Nat) : ℚ) := by
    push_cast
    field_simp
  rw [hsum, Nat.floor_div_eq_div, ← Nat.div_div_eq_div_mul]
  congr 1
  omega

/-! ### What the wrapped formulas compute -/

theorem toNat_muldiv (x y z : BitVec n) :
    (muldiv x y z).toNat = x.toNat * y.toNat % 2 ^ n / z.toNat := by
  rw [muldiv, BitVec.toNat_udiv, BitVec.toNat_mul]

theorem add_sub_one_eq {x y : BitVec n} (hy : y ≠ 0#n) :
    x + y - 1#n = BitVec.ofNat n (x.toNat + y.toNat - 1) := by
  have hpos := toNat_pos hy
  rw [eq_comm, BitVec.eq_sub_iff_add_eq, ← BitVec.ofNat_add,
    Nat.sub_add_cancel (by omega), BitVec.ofNat_add, BitVec.ofNat_toNat, BitVec.ofNat_toNat,
    BitVec.setWidth_eq, BitVec.setWidth_eq]

theorem toNat_divc {x y : BitVec n} (hy : y ≠ 0#n) :
    (divc x y).toNat = (x.toNat + y.toNat - 1) % 2 ^ n / y.toNat := by
  rw [divc, BitVec.toNat_udiv, add_sub_one_eq hy, BitVec.toNat_ofNat]

/-- At width one `2#n` is zero, and so is the half of every word. -/
theorem toNat_div_two (y : BitVec n) : (y / 2#n).toNat = y.toNat / 2 := by
  have hlt := y.isLt
  rw [BitVec.toNat_udiv, BitVec.toNat_ofNat]
  by_cases hwide : 2 < 2 ^ n
  · rw [Nat.mod_eq_of_lt hwide]
  · have hpos := Nat.two_pow_pos n
    have hmod : 2 % 2 ^ n = 0 := by
      rcases (by omega : 2 ^ n = 1 ∨ 2 ^ n = 2) with h | h <;> rw [h]
    rw [hmod, Nat.div_zero]
    omega

theorem toNat_divr (x y : BitVec n) :
    (divr x y).toNat = (x.toNat + y.toNat / 2) % 2 ^ n / y.toNat := by
  rw [divr, BitVec.toNat_udiv, BitVec.toNat_add, toNat_div_two]

theorem toNat_powBits (base : BitVec n) (exp : Nat) :
    (powBits base exp).toNat = base.toNat ^ exp % 2 ^ n := by
  induction exp with
  | zero => rw [powBits, BitVec.toNat_ofNat, Nat.pow_zero]
  | succ exp ih =>
    rw [powBits, BitVec.toNat_mul, ih, Nat.pow_succ, Nat.mul_mod_mod, Nat.mul_comm]

/-- Cutting a numerator that does not fit always changes the quotient: at least
    `2 ^ n` is lost, which is more than one divisor. -/
theorem wrapped_div_eq_iff {N z : Nat} (hz : 0 < z) (hzn : z < 2 ^ n) :
    N % 2 ^ n / z = N / z ↔ N < 2 ^ n := by
  constructor
  · intro h
    by_contra hN
    have hcut : N % 2 ^ n + z ≤ N := by
      have hdiv := Nat.div_add_mod N (2 ^ n)
      have hquot : 1 ≤ N / 2 ^ n := Nat.div_pos (Nat.not_lt.mp hN) (Nat.two_pow_pos n)
      have hmul : 2 ^ n * 1 ≤ 2 ^ n * (N / 2 ^ n) := Nat.mul_le_mul_left _ hquot
      omega
    have hstep : N % 2 ^ n / z + 1 ≤ N / z := by
      rw [← Nat.add_div_right _ hz]
      exact Nat.div_le_div_right hcut
    omega
  · intro h
    rw [Nat.mod_eq_of_lt h]

theorem eq_ofNat_iff {r : BitVec n} {v : Nat} (hv : v < 2 ^ n) :
    r = BitVec.ofNat n v ↔ r.toNat = v := by
  rw [← BitVec.toNat_inj, BitVec.toNat_ofNat, Nat.mod_eq_of_lt hv]

/-! ### Each function is faithful exactly on the operands in range -/

/-- A total formula that cuts its numerator `N` is right on a representable
    quotient exactly when nothing was cut. -/
theorem cut_faithful_iff {r z : BitVec n} {N : Nat} (hz : z ≠ 0#n)
    (hr : r.toNat = N % 2 ^ n / z.toNat) :
    (N / z.toNat < 2 ^ n → r = BitVec.ofNat n (N / z.toNat)) ↔
      N < 2 ^ n ∨ 2 ^ n ≤ N / z.toNat := by
  by_cases hfit : N / z.toNat < 2 ^ n
  · rw [eq_ofNat_iff hfit, hr, wrapped_div_eq_iff (toNat_pos hz) z.isLt]
    simp only [hfit, true_imp_iff, Nat.not_le.mpr hfit, or_false]
  · simp only [hfit, false_imp_iff, Nat.not_lt.mp hfit, or_true]

/-- Adding less than one divisor before dividing never exceeds the dividend. -/
theorem add_div_le (x : Nat) {s y : Nat} (hs : s < y) : (x + s) / y ≤ x := by
  have hy : 0 < y := by omega
  rw [Nat.div_le_iff_le_mul_add_pred hy]
  have hx : x ≤ y * x := Nat.le_mul_of_pos_left x hy
  omega

/-- A rounding formula always has a representable value, so it is right exactly
    when its numerator is not cut. -/
theorem rounded_faithful_iff {r x y : BitVec n} {s : Nat} (hs : s < y.toNat)
    (hr : r.toNat = (x.toNat + s) % 2 ^ n / y.toNat) :
    r = BitVec.ofNat n ((x.toNat + s) / y.toNat) ↔ x.toNat + s < 2 ^ n := by
  have hfit : (x.toNat + s) / y.toNat < 2 ^ n := (add_div_le _ hs).trans_lt x.isLt
  rw [eq_ofNat_iff hfit, hr, wrapped_div_eq_iff (by omega) y.isLt]

theorem divc_faithful_iff {x y : BitVec n} (hy : y ≠ 0#n) :
    divc x y = BitVec.ofNat n ((x.toNat + y.toNat - 1) / y.toNat) ↔
      x.toNat + y.toNat ≤ 2 ^ n := by
  have hpos := toNat_pos hy
  have hr := toNat_divc (x := x) hy
  rw [Nat.add_sub_assoc hpos] at hr ⊢
  rw [rounded_faithful_iff (by omega) hr]
  omega

theorem divr_faithful_iff {x y : BitVec n} (hy : y ≠ 0#n) :
    divr x y = BitVec.ofNat n ((x.toNat + y.toNat / 2) / y.toNat) ↔
      x.toNat + y.toNat / 2 < 2 ^ n := by
  have hpos := toNat_pos hy
  exact rounded_faithful_iff (by omega) (toNat_divr x y)

theorem rounded_exactValue_lt {x y : BitVec n} (hy : y ≠ 0#n) :
    ⌈(x.toNat : ℚ) / y.toNat⌉₊ < 2 ^ n ∧ ⌊(x.toNat : ℚ) / y.toNat + 1 / 2⌋₊ < 2 ^ n := by
  have hpos := toNat_pos hy
  rw [ceil_div _ hpos, floor_div_add_half _ hpos, Nat.add_sub_assoc hpos]
  exact ⟨(add_div_le _ (by omega)).trans_lt x.isLt, (add_div_le _ (by omega)).trans_lt x.isLt⟩

/-- A call that returns a word is faithful when the word is the exact value; a
    checked call, which should have failed otherwise, needs the value to fit. -/
theorem faithful_iff_of_result {c : MathCall n} {r : BitVec n} (h : c.result = Except.ok r) :
    c.Faithful ↔ (c.exactValue < 2 ^ n → r = BitVec.ofNat n c.exactValue) ∧
      (c.isChecked → c.exactValue < 2 ^ n) := by
  simp only [MathCall.Faithful, h, Except.ok.injEq, reduceCtorEq, exists_false, imp_false,
    Nat.not_le]

/-- When the exact value fits, only the word matters. -/
theorem faithful_iff_of_fits {c : MathCall n} {r : BitVec n} (h : c.result = Except.ok r)
    (hfit : c.exactValue < 2 ^ n) : c.Faithful ↔ r = BitVec.ofNat n c.exactValue := by
  rw [faithful_iff_of_result h]
  simp only [hfit, true_imp_iff, implies_true, and_true]

theorem checkedMuldiv_of_ne {x y z : BitVec n} (hz : z ≠ 0#n) :
    checkedMuldiv x y z = Except.ok (muldiv x y z) := if_neg hz

theorem checkedDivc_of_ne {x y : BitVec n} (hy : y ≠ 0#n) :
    checkedDivc x y = Except.ok (divc x y) := if_neg hy

theorem checkedDivr_of_ne {x y : BitVec n} (hy : y ≠ 0#n) :
    checkedDivr x y = Except.ok (divr x y) := if_neg hy

theorem divc_call_faithful_iff {c : MathCall n} {x y : BitVec n} (hy : y ≠ 0#n)
    (hres : c.result = Except.ok (divc x y))
    (hval : c.exactValue = ⌈(x.toNat : ℚ) / y.toNat⌉₊) :
    c.Faithful ↔ x.toNat + y.toNat ≤ 2 ^ n := by
  rw [faithful_iff_of_fits hres (hval ▸ (rounded_exactValue_lt hy).1), hval,
    ceil_div _ (toNat_pos hy)]
  exact divc_faithful_iff hy

theorem divr_call_faithful_iff {c : MathCall n} {x y : BitVec n} (hy : y ≠ 0#n)
    (hres : c.result = Except.ok (divr x y))
    (hval : c.exactValue = ⌊(x.toNat : ℚ) / y.toNat + 1 / 2⌋₊) :
    c.Faithful ↔ x.toNat + y.toNat / 2 < 2 ^ n := by
  rw [faithful_iff_of_fits hres (hval ▸ (rounded_exactValue_lt hy).2), hval,
    floor_div_add_half _ (toNat_pos hy)]
  exact divr_faithful_iff hy

/-- **When the prelude computes what the specification says**: every call with a
    nonzero divisor is faithful exactly on the operands in range; the power
    always is. -/
theorem faithful_iff_inRange (c : MathCall n) (hc : c.DivisorNonzero) :
    c.Faithful ↔ c.InRange := by
  cases c with
  | muldiv x y z =>
    rw [faithful_iff_of_result rfl]
    simp only [MathCall.exactValue, floor_mul_div, MathCall.isChecked, MathCall.InRange,
      Bool.false_eq_true, false_imp_iff, and_true]
    exact cut_faithful_iff hc (toNat_muldiv x y z)
  | checkedMuldiv x y z =>
    rw [faithful_iff_of_result (c := .checkedMuldiv x y z) (checkedMuldiv_of_ne hc)]
    simp only [MathCall.exactValue, floor_mul_div, MathCall.isChecked, MathCall.InRange,
      true_imp_iff]
    rw [cut_faithful_iff hc (toNat_muldiv x y z)]
    constructor
    · rintro ⟨h | h, hfit⟩
      · exact h
      · exact absurd hfit (Nat.not_lt.mpr h)
    · intro h
      exact ⟨Or.inl h, (Nat.div_le_self _ _).trans_lt h⟩
  | divc x y => exact divc_call_faithful_iff hc rfl rfl
  | checkedDivc x y => exact divc_call_faithful_iff hc (checkedDivc_of_ne hc) rfl
  | divr x y => exact divr_call_faithful_iff hc rfl rfl
  | checkedDivr x y => exact divr_call_faithful_iff hc (checkedDivr_of_ne hc) rfl
  | pow base exp =>
    rw [faithful_iff_of_result rfl]
    simp only [MathCall.exactValue, MathCall.isChecked, MathCall.InRange, Bool.false_eq_true,
      false_imp_iff, and_true, iff_true]
    intro hfit
    rw [eq_ofNat_iff hfit, Prelude.pow, toNat_powBits, Nat.mod_eq_of_lt hfit]

/-- A product of two bytes that still fits a byte. -/
theorem faithful_iff_inRange_bytes :
    (MathCall.checkedMuldiv 16#8 15#8 16#8).Faithful ↔ 16 * 15 < 2 ^ 8 :=
  faithful_iff_inRange (.checkedMuldiv 16#8 15#8 16#8) (show 16#8 ≠ 0#8 by decide)

/-- On bytes `16 * 16 / 16` is zero, the checked `16 * 16 / 1` is zero and not an
    error, and `255 / 2` rounds to zero both up and to nearest. -/
theorem muldiv_wraps_bytes :
    ¬ (MathCall.muldiv 16#8 16#8 16#8).Faithful ∧
      ¬ (MathCall.checkedMuldiv 16#8 16#8 1#8).Faithful ∧
      ¬ (MathCall.checkedDivc 255#8 2#8).Faithful ∧
      ¬ (MathCall.checkedDivr 255#8 2#8).Faithful := by
  have h2 : 2#8 ≠ 0#8 := by decide
  refine ⟨?_, ?_, ?_, ?_⟩
  · rw [faithful_iff_of_result rfl]
    simp only [MathCall.exactValue, floor_mul_div]
    decide
  · rw [faithful_iff_of_result rfl]
    simp only [MathCall.exactValue, floor_mul_div]
    decide
  · rw [divc_call_faithful_iff h2 rfl rfl]
    decide
  · rw [divr_call_faithful_iff h2 rfl rfl]
    decide

end CambrianLang.Prelude
