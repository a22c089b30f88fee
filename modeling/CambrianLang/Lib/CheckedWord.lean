/-
  **Checked arithmetic on fixed-width words.**

  A `w`-bit machine word is a `BitVec w`.  The languages this development is
  about trap on overflow, so every arithmetic operation returns an `Option`:
  `none` is the trap (a Rust panic, a Solidity revert).  The one idea of the file
  is `exact n`, the word that represents the natural number `n` when there is
  one; every checked operation is `exact` of the operation on `Nat`, and a
  program built from checked operations is specified by the `exact` it equals.
-/
import Mathlib.Data.Nat.Size
import Mathlib.Tactic.Ring
import Mathlib.Tactic.Linarith

namespace CambrianLang.CheckedWord

variable {w : Nat}

/-- The `w`-bit word that represents `n`, when `n` fits. -/
def exact (w n : Nat) : Option (BitVec w) :=
  if n < 2 ^ w then some (BitVec.ofNat w n) else none

/-- Checked addition. -/
def cadd (x y : BitVec w) : Option (BitVec w) :=
  if x.toNat + y.toNat < 2 ^ w then some (x + y) else none

/-- Checked subtraction. -/
def csub (x y : BitVec w) : Option (BitVec w) :=
  if y.toNat ≤ x.toNat then some (x - y) else none

/-- Checked multiplication. -/
def cmul (x y : BitVec w) : Option (BitVec w) :=
  if x.toNat * y.toNat < 2 ^ w then some (x * y) else none

/-- Division, trapping on a zero divisor. -/
def cdiv (x y : BitVec w) : Option (BitVec w) :=
  if y = 0#w then none else some (x / y)

/-- Remainder, trapping on a zero divisor. -/
def cmod (x y : BitVec w) : Option (BitVec w) :=
  if y = 0#w then none else some (x % y)

/-- Number of leading zero bits. -/
def leadingZeros (x : BitVec w) : Nat := w - x.toNat.size

/-! ### `exact` -/

theorem exact_of_lt {n : Nat} (h : n < 2 ^ w) : exact w n = some (BitVec.ofNat w n) :=
  if_pos h

theorem exact_of_le {n : Nat} (h : 2 ^ w ≤ n) : exact w n = none :=
  if_neg (Nat.not_lt.mpr h)

theorem exact_eq_some {n : Nat} {z : BitVec w} : exact w n = some z ↔ z.toNat = n := by
  unfold exact
  constructor
  · intro h
    split at h
    · next hn => cases h; simp [Nat.mod_eq_of_lt hn]
    · cases h
  · rintro rfl
    rw [if_pos z.isLt]
    simp

theorem exact_eq_none {n : Nat} : exact w n = none ↔ 2 ^ w ≤ n := by
  unfold exact
  split
  · next h => simp; omega
  · next h => simp; omega

@[simp] theorem exact_toNat (x : BitVec w) : exact w x.toNat = some x :=
  exact_eq_some.mpr rfl

attribute [irreducible] exact

/-! ### Each checked operation is `exact` of the operation on `Nat` -/

theorem cadd_eq (x y : BitVec w) : cadd x y = exact w (x.toNat + y.toNat) := by
  unfold cadd
  split
  · next h => rw [exact_of_lt h]; simp [BitVec.ofNat_add]
  · next h => rw [exact_of_le (Nat.not_lt.mp h)]

theorem cmul_eq (x y : BitVec w) : cmul x y = exact w (x.toNat * y.toNat) := by
  unfold cmul
  split
  · next h => rw [exact_of_lt h]; simp [BitVec.ofNat_mul]
  · next h => rw [exact_of_le (Nat.not_lt.mp h)]

theorem csub_eq_of_le {x y : BitVec w} (h : y.toNat ≤ x.toNat) :
    csub x y = exact w (x.toNat - y.toNat) := by
  have hx := x.isLt
  rw [csub, if_pos h, eq_comm, exact_eq_some, BitVec.toNat_sub_of_le (BitVec.le_def.mpr h)]

theorem csub_eq_none {x y : BitVec w} : csub x y = none ↔ x.toNat < y.toNat := by
  simp [csub]

theorem cdiv_eq {x y : BitVec w} (h : y ≠ 0#w) : cdiv x y = exact w (x.toNat / y.toNat) := by
  rw [cdiv, if_neg h, eq_comm, exact_eq_some, BitVec.toNat_udiv]

theorem cmod_eq {x y : BitVec w} (h : y ≠ 0#w) : cmod x y = exact w (x.toNat % y.toNat) := by
  rw [cmod, if_neg h, eq_comm, exact_eq_some, BitVec.toNat_umod]

@[simp] theorem cdiv_zero (x : BitVec w) : cdiv x 0#w = none := if_pos rfl

@[simp] theorem cmod_zero (x : BitVec w) : cmod x 0#w = none := if_pos rfl

/-! ### Introduction rules: an operation whose exact result fits succeeds -/

theorem cadd_of_lt {x y : BitVec w} (h : x.toNat + y.toNat < 2 ^ w) :
    ∃ z, cadd x y = some z ∧ z.toNat = x.toNat + y.toNat :=
  ⟨x + y, if_pos h, BitVec.toNat_add_of_lt h⟩

theorem cmul_of_lt {x y : BitVec w} (h : x.toNat * y.toNat < 2 ^ w) :
    ∃ z, cmul x y = some z ∧ z.toNat = x.toNat * y.toNat :=
  ⟨x * y, if_pos h, BitVec.toNat_mul_of_lt h⟩

theorem csub_of_le {x y : BitVec w} (h : y.toNat ≤ x.toNat) :
    ∃ z, csub x y = some z ∧ z.toNat = x.toNat - y.toNat :=
  ⟨x - y, if_pos h, BitVec.toNat_sub_of_le (BitVec.le_def.mpr h)⟩

/-! ### Words and bit lengths -/

theorem toNat_ne_zero {x : BitVec w} (h : x ≠ 0#w) : x.toNat ≠ 0 :=
  fun h0 => h (BitVec.eq_of_toNat_eq (by simpa using h0))

theorem toNat_pos {x : BitVec w} (h : x ≠ 0#w) : 0 < x.toNat :=
  Nat.pos_of_ne_zero (toNat_ne_zero h)

theorem size_le_width (x : BitVec w) : x.toNat.size ≤ w :=
  Nat.size_le.mpr x.isLt

theorem toNat_lt_two_pow_sub_leadingZeros (x : BitVec w) :
    x.toNat < 2 ^ (w - leadingZeros x) := by
  have hs := size_le_width x
  have hsub : w - leadingZeros x = x.toNat.size := by unfold leadingZeros; omega
  rw [hsub]
  exact Nat.lt_size_self _

theorem leadingZeros_lt {x : BitVec w} (h : x ≠ 0#w) : leadingZeros x < w := by
  have hpos : 0 < x.toNat.size := Nat.size_pos.mpr (toNat_pos h)
  have hs := size_le_width x
  unfold leadingZeros
  omega

theorem two_pow_le_toNat {x : BitVec w} (h : x ≠ 0#w) :
    2 ^ (w - leadingZeros x - 1) ≤ x.toNat := by
  have hpos : 0 < x.toNat.size := Nat.size_pos.mpr (toNat_pos h)
  have hs := size_le_width x
  have hsub : w - leadingZeros x - 1 = x.toNat.size - 1 := by unfold leadingZeros; omega
  rw [hsub, ← Nat.lt_size]
  omega

/-- Left shift keeps exactly the bits below the width. -/
theorem toNat_shl (x : BitVec w) (s : Nat) : (x <<< s).toNat = x.toNat * 2 ^ s % 2 ^ w := by
  rw [BitVec.toNat_shiftLeft, Nat.shiftLeft_eq]

theorem toNat_shr (x : BitVec w) (s : Nat) : (x >>> s).toNat = x.toNat / 2 ^ s := by
  rw [BitVec.toNat_ushiftRight, Nat.shiftRight_eq_div_pow]

/-- Concatenating a word below `2 ^ k` with another shifted left by `k`. -/
theorem toNat_shl_or {x y : BitVec w} {k : Nat} (hx : x.toNat < 2 ^ k)
    (hy : y.toNat * 2 ^ k < 2 ^ w) : (y <<< k ||| x).toNat = y.toNat * 2 ^ k + x.toNat := by
  rw [BitVec.toNat_or, toNat_shl, Nat.mod_eq_of_lt hy, ← Nat.shiftLeft_eq,
    ← Nat.shiftLeft_add_eq_or_of_lt hx]

/-- Masking with `2 ^ k - 1` keeps the low `k` bits. -/
theorem toNat_and_mask {x mask : BitVec w} {k : Nat} (hm : mask.toNat = 2 ^ k - 1) :
    (x &&& mask).toNat = x.toNat % 2 ^ k := by
  rw [BitVec.toNat_and, hm, Nat.and_two_pow_sub_one_eq_mod]

end CambrianLang.CheckedWord
