/-
  **The 256-bit integer of the Rust core** (`cambrian-core/src/lib.rs`).

  A `U256` is a pair of `u128` limbs.  Every `u128` operation the source leaves
  to the compiler is checked, every `expect`/`assert!` is a trap, so a Rust
  function that may panic returns an `Option`.  Each operation is followed by
  the theorem that it computes the operation on `Nat`: it is `U256.checked` of the
  mathematical result, which traps exactly when the result does not fit.
-/
import CambrianLang.Lib.CheckedWord
import CambrianLang.Lib.LongArithmetic

namespace CambrianLang.Core

open CheckedWord LongArithmetic

/-- `u128`. -/
abbrev U128 := BitVec 128

/-- `struct U256 { hi: u128, lo: u128 }`. -/
structure U256 where
  hi : U128
  lo : U128
deriving DecidableEq

namespace U256

/-- The number a `U256` stands for. -/
def toNat (v : U256) : Nat := v.hi.toNat * 2 ^ 128 + v.lo.toNat

/-- The limbs of a 256-bit word. -/
def ofWord (x : BitVec 256) : U256 := ⟨x.extractLsb' 128 128, x.extractLsb' 0 128⟩

/-- The 256-bit word with the given limbs. -/
def toWord (v : U256) : BitVec 256 := v.hi ++ v.lo

def zero : U256 := ⟨0, 0⟩
def one : U256 := ⟨0, 1⟩
def two : U256 := ⟨0, 2⟩
/-- `U256::MAX`. -/
def max : U256 := ⟨BitVec.allOnes 128, BitVec.allOnes 128⟩
/-- `U256::from_u128`. -/
def fromU128 (v : U128) : U256 := ⟨0, v⟩
/-- `U256::is_zero`. -/
def isZero (v : U256) : Bool := v.hi == 0 && v.lo == 0

theorem toNat_lt (v : U256) : v.toNat < 2 ^ 256 := by
  have hhi := v.hi.isLt
  have hlo := v.lo.isLt
  unfold toNat
  omega

theorem toNat_ofWord (x : BitVec 256) : (ofWord x).toNat = x.toNat := by
  have hx := x.isLt
  simp only [toNat, ofWord, BitVec.extractLsb'_toNat, Nat.shiftRight_eq_div_pow]
  omega

@[simp] theorem toNat_toWord (v : U256) : v.toWord.toNat = v.toNat := by
  have hlo := v.lo.isLt
  rw [toWord, BitVec.toNat_append, ← Nat.shiftLeft_add_eq_or_of_lt hlo, Nat.shiftLeft_eq]
  rfl

theorem toWord_ofWord (x : BitVec 256) : (ofWord x).toWord = x :=
  BitVec.eq_of_toNat_eq (by rw [toNat_toWord, toNat_ofWord])

theorem toNat_injective {a b : U256} (h : a.toNat = b.toNat) : a = b := by
  have ha := a.lo.isLt
  have hb := b.lo.isLt
  unfold toNat at h
  have hhi : a.hi = b.hi := BitVec.eq_of_toNat_eq (by omega)
  have hlo : a.lo = b.lo := BitVec.eq_of_toNat_eq (by omega)
  cases a; cases b; simp_all

/-- The `U256` that represents `n`, when `n` fits. -/
def checked (n : Nat) : Option U256 := (CheckedWord.exact 256 n).map ofWord

theorem checked_eq_some {n : Nat} {v : U256} : checked n = some v ↔ v.toNat = n := by
  unfold checked
  constructor
  · intro h
    obtain ⟨x, hx, rfl⟩ := Option.map_eq_some_iff.mp h
    rw [toNat_ofWord, CheckedWord.exact_eq_some.mp hx]
  · rintro rfl
    have hx := CheckedWord.exact_eq_some.mpr (toNat_toWord v)
    rw [hx, Option.map_some]
    exact congrArg some (toNat_injective (by rw [toNat_ofWord, toNat_toWord]))

@[simp] theorem checked_toNat (v : U256) : checked v.toNat = some v := checked_eq_some.mpr rfl

theorem checked_of_le {n : Nat} (h : 2 ^ 256 ≤ n) : checked n = none := by
  rw [checked, CheckedWord.exact_of_le h]; rfl

theorem checked_map_toWord (n : Nat) : (checked n).map toWord = CheckedWord.exact 256 n := by
  rw [checked, Option.map_map]
  have hid : toWord ∘ ofWord = id := funext toWord_ofWord
  rw [hid, Option.map_id]; rfl

/-- A number below `2 ^ 256` is represented. -/
theorem exists_checked {n : Nat} (h : n < 2 ^ 256) : ∃ v, checked n = some v ∧ v.toNat = n := by
  refine ⟨ofWord (BitVec.ofNat 256 n), ?_, ?_⟩
  · rw [checked, CheckedWord.exact_of_lt h, Option.map_some]
  · rw [toNat_ofWord, BitVec.toNat_ofNat, Nat.mod_eq_of_lt h]

attribute [irreducible] checked

@[simp] theorem toNat_zero : zero.toNat = 0 := rfl
@[simp] theorem toNat_one : one.toNat = 1 := rfl
@[simp] theorem toNat_two : two.toNat = 2 := rfl
@[simp] theorem toNat_max : max.toNat = 2 ^ 256 - 1 := rfl

@[simp] theorem toNat_fromU128 (v : U128) : (fromU128 v).toNat = v.toNat := by
  simp [fromU128, toNat]

theorem isZero_iff (v : U256) : v.isZero = true ↔ v.toNat = 0 := by
  simp only [isZero, Bool.and_eq_true, beq_iff_eq, toNat, ← BitVec.toNat_inj]
  simp

/-! ### Order, addition and subtraction -/

/-- `<` of the derived lexicographic `Ord`. -/
def blt (a b : U256) : Bool := decide (a.hi < b.hi) || (a.hi == b.hi && decide (a.lo < b.lo))

theorem blt_eq (a b : U256) : a.blt b = decide (a.toNat < b.toNat) := by
  have ha := a.lo.isLt
  have hb := b.lo.isLt
  rw [Bool.eq_iff_iff, decide_eq_true_eq]
  simp only [blt, toNat, Bool.or_eq_true, Bool.and_eq_true, decide_eq_true_eq, beq_iff_eq,
    BitVec.lt_def, ← BitVec.toNat_inj]
  omega

/-- `u128::overflowing_add`. -/
def overflowingAdd (x y : U128) : U128 × Bool := (x + y, decide (2 ^ 128 ≤ x.toNat + y.toNat))

/-- `u128::overflowing_sub`. -/
def overflowingSub (x y : U128) : U128 × Bool := (x - y, decide (x.toNat < y.toNat))

/-- `carry as u128`. -/
def ofBool (b : Bool) : U128 := if b then 1 else 0

theorem overflowingAdd_toNat (x y : U128) :
    (overflowingAdd x y).1.toNat + (ofBool (overflowingAdd x y).2).toNat * 2 ^ 128 =
      x.toNat + y.toNat := by
  have hx := x.isLt
  have hy := y.isLt
  by_cases h : 2 ^ 128 ≤ x.toNat + y.toNat
  · simp only [overflowingAdd, h, decide_true, ofBool, if_true, BitVec.toNat_add]
    simp only [BitVec.toNat_one (show 0 < 128 by omega), BitVec.ofNat_eq_ofNat]
    omega
  · simp only [overflowingAdd, h, decide_false, ofBool, BitVec.toNat_add]
    simp
    omega

theorem overflowingSub_toNat (x y : U128) :
    (overflowingSub x y).1.toNat + y.toNat =
      x.toNat + (ofBool (overflowingSub x y).2).toNat * 2 ^ 128 := by
  have hx := x.isLt
  have hy := y.isLt
  by_cases h : x.toNat < y.toNat
  · simp only [overflowingSub, h, decide_true, ofBool, if_true, BitVec.toNat_sub]
    simp only [BitVec.toNat_one (show 0 < 128 by omega), BitVec.ofNat_eq_ofNat]
    omega
  · simp only [overflowingSub, h, decide_false, ofBool, BitVec.toNat_sub]
    simp
    omega

theorem ofBool_toNat_le (b : Bool) : (ofBool b).toNat ≤ 1 := by
  cases b <;> decide

/-- `impl Add for U256`. -/
def add (a b : U256) : Option U256 := do
  let (lo, carry) := overflowingAdd a.lo b.lo
  let hi ← cadd a.hi b.hi
  let hi ← cadd hi (ofBool carry)
  return ⟨hi, lo⟩

/-- `impl Sub for U256`. -/
def sub (a b : U256) : Option U256 := do
  let (lo, borrow) := overflowingSub a.lo b.lo
  let hi ← csub a.hi b.hi
  let hi ← csub hi (ofBool borrow)
  return ⟨hi, lo⟩

theorem add_eq (a b : U256) : a.add b = checked (a.toNat + b.toNat) := by
  have hlo := overflowingAdd_toNat a.lo b.lo
  have hloLt := (overflowingAdd a.lo b.lo).1.isLt
  have hcarry := ofBool_toNat_le (overflowingAdd a.lo b.lo).2
  by_cases hfit : a.toNat + b.toNat < 2 ^ 256
  · unfold toNat at hfit
    obtain ⟨h1, hh1, hv1⟩ := cadd_of_lt (x := a.hi) (y := b.hi) (by omega)
    obtain ⟨h2, hh2, hv2⟩ := cadd_of_lt (x := h1) (y := ofBool (overflowingAdd a.lo b.lo).2)
      (by omega)
    have hadd : a.add b = some ⟨h2, (overflowingAdd a.lo b.lo).1⟩ := by
      simp [add, hh1, hh2]
    rw [hadd, eq_comm, checked_eq_some]
    simp only [toNat]
    omega
  · have hnone : a.add b = none := by
      unfold toNat at hfit
      by_cases hov : 2 ^ 128 ≤ a.hi.toNat + b.hi.toNat
      · simp [add, cadd_eq, CheckedWord.exact_of_le hov]
      · obtain ⟨h1, hh1, hv1⟩ := cadd_of_lt (x := a.hi) (y := b.hi) (by omega)
        have hov2 : 2 ^ 128 ≤ h1.toNat + (ofBool (overflowingAdd a.lo b.lo).2).toNat := by omega
        have hh2 : cadd h1 (ofBool (overflowingAdd a.lo b.lo).2) = none := by
          rw [cadd_eq, CheckedWord.exact_of_le hov2]
        simp [add, hh1, hh2]
    rw [hnone, checked_of_le (Nat.not_lt.mp hfit)]

theorem sub_of_le {a b : U256} (h : b.toNat ≤ a.toNat) :
    ∃ v, a.sub b = some v ∧ v.toNat = a.toNat - b.toNat := by
  have hlo := overflowingSub_toNat a.lo b.lo
  have ha := a.lo.isLt
  have hb := b.lo.isLt
  have hloLt := (overflowingSub a.lo b.lo).1.isLt
  have hborrow := ofBool_toNat_le (overflowingSub a.lo b.lo).2
  unfold toNat at h
  obtain ⟨h1, hh1, hv1⟩ := csub_of_le (x := a.hi) (y := b.hi) (by omega)
  obtain ⟨h2, hh2, hv2⟩ := csub_of_le (x := h1) (y := ofBool (overflowingSub a.lo b.lo).2)
    (by omega)
  refine ⟨⟨h2, (overflowingSub a.lo b.lo).1⟩, by simp [sub, hh1, hh2], ?_⟩
  simp only [toNat]
  omega

/-! ### Shifts -/

end U256

open U256

/-- `u256_shl`. -/
def u256Shl (v : U256) (shift : Nat) : U256 :=
  if shift = 0 then v
  else if 256 ≤ shift then zero
  else if 128 ≤ shift then ⟨v.lo <<< (shift - 128), 0⟩
  else ⟨(v.hi <<< shift) ||| (v.lo >>> (128 - shift)), v.lo <<< shift⟩

/-- `u256_shr`. -/
def u256Shr (v : U256) (shift : Nat) : U256 :=
  if shift = 0 then v
  else if 256 ≤ shift then zero
  else if 128 ≤ shift then ⟨0, v.hi >>> (shift - 128)⟩
  else ⟨v.hi >>> shift, (v.lo >>> shift) ||| (v.hi <<< (128 - shift))⟩

theorem u256Shl_toWord (v : U256) (s : Nat) : (u256Shl v s).toWord = v.toWord <<< s := by
  unfold u256Shl
  split
  · next h => simp [h]
  split
  · next h => rw [BitVec.shiftLeft_eq_zero h]; rfl
  split
  · next hs0 hs256 hs128 =>
    apply BitVec.eq_of_getLsbD_eq
    intro i hi
    have hidx : i - 128 - (s - 128) = i - s := by omega
    simp only [toWord, BitVec.getLsbD_append, BitVec.getLsbD_shiftLeft, BitVec.ofNat_eq_ofNat,
      BitVec.getLsbD_zero, hidx]
    by_cases hlow : i < 128
    · simp [hlow, show i < s by omega]
    · have hsub : i - s < 128 := by omega
      by_cases his : i < s
      · simp [hlow, his, show i - 128 < s - 128 by omega]
      · simp [hlow, hi, his, hsub, show ¬ i - 128 < s - 128 by omega, show i - 128 < 128 by omega]
  · next hs0 hs256 hs128 =>
    apply BitVec.eq_of_getLsbD_eq
    intro i hi
    have hhi : i - 128 - s = i - s - 128 := by omega
    simp only [toWord, BitVec.getLsbD_append, BitVec.getLsbD_shiftLeft, BitVec.getLsbD_or,
      BitVec.getLsbD_ushiftRight, hhi]
    by_cases hlow : i < 128
    · simp [hlow, show i < 256 by omega, show i - s < 128 by omega]
    · have hcomb : 128 - s + (i - 128) = i - s := by omega
      rw [hcomb]
      by_cases his : i - s < 128
      · -- the bit comes from the low limb
        simp [hlow, hi, his, show i - 128 < 128 by omega, show i - 128 < s by omega,
          show ¬ i < s by omega]
      · simp [hlow, hi, his, show i - 128 < 128 by omega, show ¬ i - 128 < s by omega,
          show ¬ i < s by omega, BitVec.getLsbD_of_ge v.lo (i - s) (Nat.not_lt.mp his)]

theorem u256Shr_toWord (v : U256) (s : Nat) : (u256Shr v s).toWord = v.toWord >>> s := by
  unfold u256Shr
  split
  · next h => simp [h]
  split
  · next h => rw [BitVec.ushiftRight_eq_zero h]; rfl
  split
  · next hs0 hs256 hs128 =>
    apply BitVec.eq_of_getLsbD_eq
    intro i hi
    have hidx : s + i - 128 = s - 128 + i := by omega
    simp only [toWord, BitVec.getLsbD_append, BitVec.getLsbD_ushiftRight, BitVec.ofNat_eq_ofNat,
      BitVec.getLsbD_zero]
    by_cases hlow : i < 128
    · simp [hlow, show ¬ s + i < 128 by omega, hidx]
    · simp [hlow, show ¬ s + i < 128 by omega, hidx,
        BitVec.getLsbD_of_ge v.hi (s - 128 + i) (by omega)]
  · next hs0 hs256 hs128 =>
    apply BitVec.eq_of_getLsbD_eq
    intro i hi
    simp only [toWord, BitVec.getLsbD_append, BitVec.getLsbD_shiftLeft, BitVec.getLsbD_or,
      BitVec.getLsbD_ushiftRight]
    by_cases hlow : i < 128
    · by_cases hsum : s + i < 128
      · simp [hlow, hsum, show i < 128 - s by omega]
      · have hidx : i - (128 - s) = s + i - 128 := by omega
        simp [hlow, hsum, show ¬ i < 128 - s by omega, hidx,
          BitVec.getLsbD_of_ge v.lo (s + i) (Nat.not_lt.mp hsum)]
    · simp [hlow, show ¬ s + i < 128 by omega, show s + (i - 128) = s + i - 128 by omega]

theorem u256Shl_toNat (v : U256) (s : Nat) : (u256Shl v s).toNat = v.toNat * 2 ^ s % 2 ^ 256 := by
  rw [← toNat_toWord, u256Shl_toWord, toNat_shl, toNat_toWord]

theorem u256Shr_toNat (v : U256) (s : Nat) : (u256Shr v s).toNat = v.toNat / 2 ^ s := by
  rw [← toNat_toWord, u256Shr_toWord, toNat_shr, toNat_toWord]

/-- `U256::leading_zeros`. -/
def U256.leadingZeros (v : U256) : Nat :=
  if v.hi = 0 then 128 + CheckedWord.leadingZeros v.lo else CheckedWord.leadingZeros v.hi

theorem leadingZeros_toWord (v : U256) :
    v.leadingZeros = CheckedWord.leadingZeros v.toWord := by
  have hlo := size_le_width v.lo
  unfold U256.leadingZeros CheckedWord.leadingZeros
  rw [toNat_toWord, U256.toNat]
  by_cases h : v.hi = 0
  · rw [if_pos h, h]
    simp only [BitVec.ofNat_eq_ofNat, BitVec.toNat_ofNat, Nat.zero_mod, Nat.zero_mul, Nat.zero_add]
    omega
  · rw [if_neg h, LongArithmetic.size_mul_two_pow_add (toNat_ne_zero h) v.lo.isLt]
    omega

/-! ### Division -/

/-- The variables of the loop of `u256_div_rem`. -/
structure DivRemState where
  rem : U256
  divisor : U256
  quot : U256

/-- Body of the loop of `u256_div_rem`. -/
def divRemStep (i : Nat) (s : DivRemState) : Option DivRemState :=
  if s.rem.blt s.divisor then some { s with divisor := u256Shr s.divisor 1 }
  else do
    let rem ← s.rem.sub s.divisor
    let quot ← s.quot.add (u256Shl one i)
    return ⟨rem, u256Shr s.divisor 1, quot⟩

/-- `u32::abs_diff`. -/
def absDiff (a b : Nat) : Nat := if a < b then b - a else a - b

/-- `u256_div_rem`. -/
def u256DivRem (n d : U256) : Option (U256 × U256) :=
  if d.isZero then none
  else if n.blt d then some (zero, n)
  else if d.hi = 0 ∧ n.hi = 0 then some (fromU128 (n.lo / d.lo), fromU128 (n.lo % d.lo))
  else
    let shift := absDiff n.leadingZeros d.leadingZeros
    -- `for i in (0..=shift).rev()`
    (DivMachine.run divRemStep (shift + 1) ⟨n, u256Shl d shift, zero⟩).map fun s => (s.quot, s.rem)

/-- A quotient bit of 256-bit numbers, as the loop adds it. -/
theorem u256Shl_one_toNat {i : Nat} (h : 2 ^ i < 2 ^ 256) : (u256Shl one i).toNat = 2 ^ i := by
  rw [u256Shl_toNat, toNat_one, Nat.one_mul, Nat.mod_eq_of_lt h]

/-- The loop of `u256_div_rem` is a division machine: `divisor` is `d · 2^i` at
    the top of iteration `i`. -/
def divRemMachine (d : Nat) (hd : 0 < d) : DivMachine DivRemState d 256 where
  rem s := s.rem.toNat
  quot s := s.quot.toNat
  inv k s := ∀ i, k = i + 1 → s.divisor.toNat = d * 2 ^ i
  step := divRemStep
  step_sub := by
    intro i s hinv hle _ hfit
    have hdivisor := hinv i rfl
    obtain ⟨rem, hrem, hremv⟩ := sub_of_le (a := s.rem) (b := s.divisor) (by omega)
    obtain ⟨quot, hquot, hquotv⟩ := exists_checked (n := s.quot.toNat + 2 ^ i) hfit
    have hadd : s.quot.add (u256Shl one i) = some quot := by
      rw [add_eq, u256Shl_one_toNat (by omega), hquot]
    refine ⟨⟨rem, u256Shr s.divisor 1, quot⟩, ?_, ?_, by rw [hremv, hdivisor], hquotv⟩
    · rw [divRemStep, blt_eq, if_neg (by simp [hdivisor, hle]), hrem, hadd]
      rfl
    · rintro j rfl
      rw [u256Shr_toNat, hdivisor, Nat.pow_succ, ← Nat.mul_assoc, Nat.pow_one,
        Nat.mul_div_cancel _ (by omega)]
  step_skip := by
    intro i s hinv hlt
    have hdivisor := hinv i rfl
    refine ⟨{ s with divisor := u256Shr s.divisor 1 }, ?_, ?_, rfl, rfl⟩
    · rw [divRemStep, blt_eq, if_pos (by simp [hdivisor, hlt])]
    · rintro j rfl
      rw [u256Shr_toNat, hdivisor, Nat.pow_succ, ← Nat.mul_assoc, Nat.pow_one,
        Nat.mul_div_cancel _ (by omega)]
  step_over := by
    intro i s _ hle hi
    have hpow : 2 ^ 256 ≤ 2 ^ i := Nat.pow_le_pow_right (by omega) hi
    have hmul : 1 * 2 ^ i ≤ d * 2 ^ i := Nat.mul_le_mul_right _ hd
    have hrem := s.rem.toNat_lt
    omega

/-- Before the loop the leading bit of the divisor is aligned with that of the dividend: nothing
    is shifted out, and the dividend is below twice the shifted divisor. -/
theorem divRem_aligned {n d : U256} (hd : d.toNat ≠ 0) (hle : d.toNat ≤ n.toNat) :
    absDiff n.leadingZeros d.leadingZeros < 256 ∧
      (u256Shl d (absDiff n.leadingZeros d.leadingZeros)).toNat =
        d.toNat * 2 ^ absDiff n.leadingZeros d.leadingZeros ∧
      n.toNat < d.toNat * 2 ^ (absDiff n.leadingZeros d.leadingZeros + 1) := by
  have hdw : d.toWord ≠ 0#256 := fun h => hd (by rw [← toNat_toWord, h]; rfl)
  have hnw : n.toWord ≠ 0#256 := fun h => hd (by
    have hn : n.toNat = 0 := by rw [← toNat_toWord, h]; rfl
    omega)
  have hnUp := toNat_lt_two_pow_sub_leadingZeros n.toWord
  have hdUp := toNat_lt_two_pow_sub_leadingZeros d.toWord
  have hdLow := two_pow_le_toNat hdw
  have hnLow := two_pow_le_toNat hnw
  have hnLz := leadingZeros_lt hnw
  have hdLz := leadingZeros_lt hdw
  rw [← leadingZeros_toWord, toNat_toWord] at hnUp hdUp hdLow hnLow
  rw [← leadingZeros_toWord] at hnLz hdLz
  -- the dividend is at least as long as the divisor
  have hlz : n.leadingZeros ≤ d.leadingZeros := by
    by_contra hcon
    have hlt' : 2 ^ (256 - n.leadingZeros) ≤ 2 ^ (256 - d.leadingZeros - 1) :=
      Nat.pow_le_pow_right (by omega) (by omega)
    omega
  have hshift : absDiff n.leadingZeros d.leadingZeros = d.leadingZeros - n.leadingZeros := by
    unfold absDiff; split <;> omega
  rw [hshift]
  refine ⟨by omega, ?_, ?_⟩
  · rw [u256Shl_toNat, Nat.mod_eq_of_lt]
    exact LongArithmetic.mul_two_pow_lt hdUp (by omega)
  · have h := LongArithmetic.lt_mul_two_pow hnUp hdLow
    have hexp : 256 - n.leadingZeros - (256 - d.leadingZeros - 1) =
      d.leadingZeros - n.leadingZeros + 1 := by omega
    rwa [hexp] at h

/-- The invariant of the loop at its start. -/
theorem divRemMachine_inv {n d : U256} (hpos : 0 < d.toNat) {shift : Nat}
    (hshl : (u256Shl d shift).toNat = d.toNat * 2 ^ shift) :
    (divRemMachine d.toNat hpos).inv (shift + 1) ⟨n, u256Shl d shift, zero⟩ := by
  intro i hi
  obtain rfl : i = shift := by omega
  exact hshl

theorem divRem_fits (n : U256) (d : Nat) : zero.toNat + n.toNat / d < 2 ^ 256 := by
  have hn := n.toNat_lt
  have hdle := Nat.div_le_self n.toNat d
  rw [toNat_zero]
  omega

/-- **`u256_div_rem` is exact** and traps only on a zero divisor. -/
theorem u256DivRem_eq {n d : U256} (hd : d.toNat ≠ 0) :
    ∃ q r, u256DivRem n d = some (q, r) ∧ q.toNat = n.toNat / d.toNat ∧
      r.toNat = n.toNat % d.toNat := by
  have hpos : 0 < d.toNat := Nat.pos_of_ne_zero hd
  unfold u256DivRem
  rw [if_neg (by simp [isZero_iff, hd]), U256.blt_eq]
  by_cases hlt : n.toNat < d.toNat
  · rw [if_pos (by simpa using hlt)]
    exact ⟨zero, n, rfl, by rw [Nat.div_eq_of_lt hlt]; rfl, (Nat.mod_eq_of_lt hlt).symm⟩
  rw [if_neg (by simpa using hlt)]
  by_cases hsmall : d.hi = 0 ∧ n.hi = 0
  · rw [if_pos hsmall]
    have hdv : d.toNat = d.lo.toNat := by simp [U256.toNat, hsmall.1]
    have hnv : n.toNat = n.lo.toNat := by simp [U256.toNat, hsmall.2]
    exact ⟨_, _, rfl, by rw [toNat_fromU128, hdv, hnv, BitVec.toNat_udiv],
      by rw [toNat_fromU128, hdv, hnv, BitVec.toNat_umod]⟩
  rw [if_neg hsmall]
  obtain ⟨-, hshl, hbound⟩ := divRem_aligned hd (Nat.not_lt.mp hlt)
  obtain ⟨s, hs, hq, hr⟩ := (divRemMachine d.toNat hpos).run_eq_some hpos _ _
    (divRemMachine_inv hpos hshl) hbound (divRem_fits n d.toNat)
  refine ⟨s.quot, s.rem, ?_, ?_, hr⟩
  · show Option.map _ (DivMachine.run (divRemMachine d.toNat hpos).step _ _) = _
    rw [hs]
    rfl
  · show (divRemMachine d.toNat hpos).quot s = _
    rw [hq]
    show zero.toNat + n.toNat / d.toNat = _
    rw [toNat_zero, Nat.zero_add]

/-- `impl Div for U256`. -/
def U256.div (a b : U256) : Option U256 := (u256DivRem a b).map Prod.fst

/-- `impl Rem for U256`. -/
def U256.rem (a b : U256) : Option U256 := (u256DivRem a b).map Prod.snd

theorem u256DivRem_zero {n d : U256} (hd : d.toNat = 0) : u256DivRem n d = none := by
  rw [u256DivRem, if_pos ((isZero_iff d).mpr hd)]

theorem U256.div_eq {a b : U256} (hb : b.toNat ≠ 0) :
    ∃ q, a.div b = some q ∧ q.toNat = a.toNat / b.toNat := by
  obtain ⟨q, r, h, hq, -⟩ := u256DivRem_eq (n := a) hb
  exact ⟨q, by rw [U256.div, h]; rfl, hq⟩

theorem U256.rem_eq {a b : U256} (hb : b.toNat ≠ 0) :
    ∃ r, a.rem b = some r ∧ r.toNat = a.toNat % b.toNat := by
  obtain ⟨q, r, h, -, hr⟩ := u256DivRem_eq (n := a) hb
  exact ⟨r, by rw [U256.rem, h]; rfl, hr⟩

end CambrianLang.Core
