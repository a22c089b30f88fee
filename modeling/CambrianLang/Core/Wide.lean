/-
  **Wide multiplication and `muldiv` of the Rust core.**

  `u256_widening_mul_u128` multiplies two `u128` by 64-bit halves, `u512_mul`
  composes four of these into a 512-bit product with explicit carries, and
  `u512_div_by_u256` is restoring division of the product.  `wideMuldiv_eq` says
  what the composition computes: `⌊x · y / z⌋` when it fits, a panic otherwise.
-/
import CambrianLang.Core.U256

namespace CambrianLang.Core

open CheckedWord LongArithmetic U256

/-! ### 128 × 128 → 256 -/

/-- `x as u64 as u128`. -/
def asU64 (x : U128) : U128 := (x.setWidth 64).setWidth 128

theorem asU64_toNat (x : U128) : (asU64 x).toNat = x.toNat % 2 ^ 64 := by
  have hx := x.isLt
  simp only [asU64, BitVec.toNat_setWidth]
  omega

/-- `u256_widening_mul_u128`. -/
def u256WideningMulU128 (a b : U128) : Option (U128 × U128) := do
  let aLo := asU64 a
  let aHi := a >>> 64
  let bLo := asU64 b
  let bHi := b >>> 64
  let ll ← cmul aLo bLo
  let lh ← cmul aLo bHi
  let hl ← cmul aHi bLo
  let hh ← cmul aHi bHi
  let mid ← cadd lh (ll >>> 64)
  let mid2 ← cadd (asU64 mid) hl
  let lo := (asU64 mid2 <<< 64) ||| asU64 ll
  let hi ← cadd hh (mid >>> 64)
  let hi ← cadd hi (mid2 >>> 64)
  return (hi, lo)

theorem u256WideningMulU128_eq (a b : U128) :
    ∃ hi lo, u256WideningMulU128 a b = some (hi, lo) ∧
      hi.toNat * 2 ^ 128 + lo.toNat = a.toNat * b.toNat := by
  have haLo : (asU64 a).toNat < 2 ^ 64 := by rw [asU64_toNat]; omega
  have hbLo : (asU64 b).toNat < 2 ^ 64 := by rw [asU64_toNat]; omega
  have haHi : (a >>> 64).toNat < 2 ^ 64 := by rw [toNat_shr]; have := a.isLt; omega
  have hbHi : (b >>> 64).toNat < 2 ^ 64 := by rw [toNat_shr]; have := b.isLt; omega
  have ha : a.toNat = (a >>> 64).toNat * 2 ^ 64 + (asU64 a).toNat := by
    rw [asU64_toNat, toNat_shr]; omega
  have hb : b.toNat = (b >>> 64).toNat * 2 ^ 64 + (asU64 b).toNat := by
    rw [asU64_toNat, toNat_shr]; omega
  have hllLe := LongArithmetic.mul_le_of_lt haLo hbLo
  have hlhLe := LongArithmetic.mul_le_of_lt haLo hbHi
  have hhlLe := LongArithmetic.mul_le_of_lt haHi hbLo
  have hhhLe := LongArithmetic.mul_le_of_lt haHi hbHi
  obtain ⟨ll, hll, hllv⟩ := cmul_of_lt (x := asU64 a) (y := asU64 b) (by omega)
  obtain ⟨lh, hlh, hlhv⟩ := cmul_of_lt (x := asU64 a) (y := b >>> 64) (by omega)
  obtain ⟨hl, hhl, hhlv⟩ := cmul_of_lt (x := a >>> 64) (y := asU64 b) (by omega)
  obtain ⟨hh, hhh, hhhv⟩ := cmul_of_lt (x := a >>> 64) (y := b >>> 64) (by omega)
  have hllShr := toNat_shr ll 64
  obtain ⟨mid, hmid, hmidv⟩ := cadd_of_lt (x := lh) (y := ll >>> 64) (by omega)
  have hmidLo := asU64_toNat mid
  obtain ⟨mid2, hmid2, hmid2v⟩ := cadd_of_lt (x := asU64 mid) (y := hl) (by omega)
  have hmidShr := toNat_shr mid 64
  have hmid2Shr := toNat_shr mid2 64
  obtain ⟨hi1, hhi1, hhi1v⟩ := cadd_of_lt (x := hh) (y := mid >>> 64) (by omega)
  obtain ⟨hi, hhi, hhiv⟩ := cadd_of_lt (x := hi1) (y := mid2 >>> 64) (by omega)
  have hmid2Lo := asU64_toNat mid2
  have hllLo := asU64_toNat ll
  have hlo : ((asU64 mid2 <<< 64) ||| asU64 ll).toNat =
      (asU64 mid2).toNat * 2 ^ 64 + (asU64 ll).toNat :=
    toNat_shl_or (by omega) (by omega)
  refine ⟨hi, (asU64 mid2 <<< 64) ||| asU64 ll, ?_, ?_⟩
  · simp [u256WideningMulU128, hll, hlh, hhl, hhh, hmid, hmid2, hhi1, hhi]
  · have hprod := LongArithmetic.mul_limbs (a >>> 64).toNat (asU64 a).toNat (b >>> 64).toNat (asU64 b).toNat
      (2 ^ 64)
    rw [← ha, ← hb, ← hllv, ← hlhv, ← hhlv, ← hhhv] at hprod
    rw [hprod, hlo]
    omega

/-! ### `impl Mul for U256` -/

/-- `impl Mul for U256`. -/
def U256.mul (a b : U256) : Option U256 := do
  let (resHi, resLo) ← u256WideningMulU128 a.lo b.lo
  let cross1 ← cmul a.hi b.lo
  let cross2 ← cmul a.lo b.hi
  let hi ← cadd resHi cross1
  let hi ← cadd hi cross2
  if a.hi ≠ 0 ∧ b.hi ≠ 0 then none else return ⟨hi, resLo⟩

/-- **`U256` multiplication is exact** and panics exactly on overflow. -/
theorem U256.mul_eq (a b : U256) : a.mul b = checked (a.toNat * b.toNat) := by
  obtain ⟨resHi, resLo, hres, hresv⟩ := u256WideningMulU128_eq a.lo b.lo
  have hprod := LongArithmetic.mul_limbs a.hi.toNat a.lo.toNat b.hi.toNat b.lo.toNat (2 ^ 128)
  rw [← U256.toNat, ← U256.toNat, ← hresv] at hprod
  have hresLo := resLo.isLt
  -- a trapping limb operation means that the product is at least `2 ^ 256`
  have hover : ∀ n, 2 ^ 128 ≤ n → n * 2 ^ 128 ≤ a.toNat * b.toNat →
      checked (a.toNat * b.toNat) = none := by
    intro n hn hle
    exact checked_of_le (by omega)
  by_cases h1 : 2 ^ 128 ≤ a.hi.toNat * b.lo.toNat
  · rw [hover _ h1 (by omega)]
    simp [U256.mul, hres, cmul_eq, CheckedWord.exact_of_le h1]
  by_cases h2 : 2 ^ 128 ≤ a.lo.toNat * b.hi.toNat
  · rw [hover _ h2 (by omega)]
    simp [U256.mul, hres, cmul_eq, CheckedWord.exact_of_le h2]
  obtain ⟨cross1, hc1, hc1v⟩ := cmul_of_lt (x := a.hi) (y := b.lo) (Nat.not_le.mp h1)
  obtain ⟨cross2, hc2, hc2v⟩ := cmul_of_lt (x := a.lo) (y := b.hi) (Nat.not_le.mp h2)
  by_cases h3 : 2 ^ 128 ≤ resHi.toNat + cross1.toNat
  · rw [hover _ h3 (by omega)]
    simp [U256.mul, hres, hc1, hc2, cadd_eq, CheckedWord.exact_of_le h3]
  obtain ⟨hi1, hhi1, hhi1v⟩ := cadd_of_lt (x := resHi) (y := cross1) (Nat.not_le.mp h3)
  by_cases h4 : 2 ^ 128 ≤ hi1.toNat + cross2.toNat
  · have hnone : cadd hi1 cross2 = none := by rw [cadd_eq, CheckedWord.exact_of_le h4]
    rw [hover _ h4 (by omega)]
    simp [U256.mul, hres, hc1, hc2, hhi1, hnone]
  obtain ⟨hi, hhi, hhiv⟩ := cadd_of_lt (x := hi1) (y := cross2) (Nat.not_le.mp h4)
  by_cases h5 : a.hi ≠ 0 ∧ b.hi ≠ 0
  · have hone : 1 ≤ a.hi.toNat * b.hi.toNat := Nat.mul_pos (toNat_pos h5.1) (toNat_pos h5.2)
    rw [checked_of_le (by omega)]
    simp only [U256.mul, hres, hc1, hc2, hhi1, hhi, Option.bind_eq_bind, Option.bind_some]
    rw [if_pos h5]
  · have hzero : a.hi.toNat * b.hi.toNat = 0 := by
      rcases not_and_or.mp h5 with h | h
      · rw [not_not.mp h]; simp
      · rw [not_not.mp h]; simp
    have hmul : a.mul b = some ⟨hi, resLo⟩ := by
      simp only [U256.mul, hres, hc1, hc2, hhi1, hhi, Option.bind_eq_bind, Option.bind_some]
      rw [if_neg h5]
      rfl
    have hval : U256.toNat ⟨hi, resLo⟩ = a.toNat * b.toNat := by
      have hdef : U256.toNat ⟨hi, resLo⟩ = hi.toNat * 2 ^ 128 + resLo.toNat := rfl
      omega
    rw [hmul, checked_eq_some.mpr hval]

/-! ### 512-bit helpers -/

/-- The number a pair of limbs `(hi, lo)` stands for. -/
def u512ToNat (n : U256 × U256) : Nat := n.1.toNat * 2 ^ 256 + n.2.toNat

/-- `u512_mul`. -/
def u512Mul (a b : U256) : Option (U256 × U256) := do
  let (llHi, llLo) ← u256WideningMulU128 a.lo b.lo
  let (lhHi, lhLo) ← u256WideningMulU128 a.lo b.hi
  let (hlHi, hlLo) ← u256WideningMulU128 a.hi b.lo
  let (hhHi, hhLo) ← u256WideningMulU128 a.hi b.hi
  let p0 := llLo
  let (p1, carry1) := overflowingAdd llHi lhLo
  let (p1, carry1b) := overflowingAdd p1 hlLo
  let c1 ← cadd (ofBool carry1) (ofBool carry1b)
  let (p2, carry2) := overflowingAdd lhHi hlHi
  let (p2, carry2b) := overflowingAdd p2 hhLo
  let (p2, carry2c) := overflowingAdd p2 c1
  let c2 ← cadd (ofBool carry2) (ofBool carry2b)
  let c2 ← cadd c2 (ofBool carry2c)
  let p3 ← cadd hhHi c2
  return (⟨p3, p2⟩, ⟨p1, p0⟩)

theorem toNat_mul_lt (a b : U256) : a.toNat * b.toNat < 2 ^ 256 * 2 ^ 256 := by
  have h := LongArithmetic.mul_le_of_lt a.toNat_lt b.toNat_lt
  omega

/-- Three limbs added with two wrapping additions: the carries are what the
    wrapped sum lost. -/
theorem overflowingAdd_column (x y z : U128) :
    let s := overflowingAdd x y
    let t := overflowingAdd s.1 z
    ∃ c, cadd (ofBool s.2) (ofBool t.2) = some c ∧ c.toNat ≤ 2 ∧
      x.toNat + y.toNat + z.toNat = t.1.toNat + c.toNat * 2 ^ 128 := by
  intro s t
  have hs := overflowingAdd_toNat x y
  have ht := overflowingAdd_toNat s.1 z
  have hsLe := ofBool_toNat_le s.2
  have htLe := ofBool_toNat_le t.2
  obtain ⟨c, hc, hcv⟩ := cadd_of_lt (x := ofBool s.2) (y := ofBool t.2) (by omega)
  refine ⟨c, hc, by omega, ?_⟩
  simp only [s, t] at *
  omega

/-- **The limb product is exact**; no carry overflows. -/
theorem u512Mul_eq (a b : U256) :
    ∃ n, u512Mul a b = some n ∧ u512ToNat n = a.toNat * b.toNat := by
  obtain ⟨llHi, llLo, hll, hllv⟩ := u256WideningMulU128_eq a.lo b.lo
  obtain ⟨lhHi, lhLo, hlh, hlhv⟩ := u256WideningMulU128_eq a.lo b.hi
  obtain ⟨hlHi, hlLo, hhl, hhlv⟩ := u256WideningMulU128_eq a.hi b.lo
  obtain ⟨hhHi, hhLo, hhh, hhhv⟩ := u256WideningMulU128_eq a.hi b.hi
  have hprod := LongArithmetic.mul_limbs a.hi.toNat a.lo.toNat b.hi.toNat b.lo.toNat (2 ^ 128)
  rw [← U256.toNat, ← U256.toNat] at hprod
  have hlt := toNat_mul_lt a b
  obtain ⟨c1, hc1, hc1le, hcol1⟩ := overflowingAdd_column llHi lhLo hlLo
  obtain ⟨c2, hc2, hc2le, hcol2⟩ := overflowingAdd_column lhHi hlHi hhLo
  have hp2c := overflowingAdd_toNat (overflowingAdd (overflowingAdd lhHi hlHi).1 hhLo).1 c1
  have hle2c := ofBool_toNat_le
    (overflowingAdd (overflowingAdd (overflowingAdd lhHi hlHi).1 hhLo).1 c1).2
  obtain ⟨c2', hc2', hc2v'⟩ := cadd_of_lt (x := c2)
    (y := ofBool (overflowingAdd (overflowingAdd (overflowingAdd lhHi hlHi).1 hhLo).1 c1).2)
    (by omega)
  have hcols := LongArithmetic.limb_columns hllv hlhv hhlv hhhv hcol1
    (show _ = (overflowingAdd (overflowingAdd (overflowingAdd lhHi hlHi).1 hhLo).1 c1).1.toNat +
      c2'.toNat * 2 ^ 128 by rw [hc2v']; omega)
  rw [← hprod] at hcols
  -- the top limb fits because the whole product does
  have htop : hhHi.toNat + c2'.toNat < 2 ^ 128 := by
    clear hcol1 hcol2 hp2c hllv hlhv hhlv hhhv hprod
    omega
  obtain ⟨p3, hp3, hp3v⟩ := cadd_of_lt htop
  refine ⟨(⟨p3, (overflowingAdd (overflowingAdd (overflowingAdd lhHi hlHi).1 hhLo).1 c1).1⟩,
    ⟨(overflowingAdd (overflowingAdd llHi lhLo).1 hlLo).1, llLo⟩), ?_, ?_⟩
  · simp only [u512Mul, hll, hlh, hhl, hhh, Option.bind_eq_bind, Option.bind_some, hc1, hc2, hc2',
      hp3]
    rfl
  · rw [← hcols, ← hp3v]
    rfl

/-- `u512_shl_u256`. -/
def u512ShlU256 (v : U256) (shift : Nat) : U256 × U256 :=
  if shift = 0 then (zero, v)
  else if 512 ≤ shift then (zero, zero)
  else if 256 ≤ shift then (u256Shl v (shift - 256), zero)
  else
    let lo := u256Shl v shift
    let hi := if shift = 0 then zero else u256Shr v (256 - shift)
    (hi, lo)

/-- `u512_gte`. -/
def u512Gte (a b : U256 × U256) : Bool := b.1.blt a.1 || (a.1 == b.1 && !a.2.blt b.2)

/-- `u512_sub`. -/
def u512Sub (a b : U256 × U256) : Option (U256 × U256) := do
  let borrow := a.2.blt b.2
  let lo ← if borrow then do
      let t ← U256.max.sub b.2
      let t ← t.add a.2
      t.add one
    else a.2.sub b.2
  let hi ← a.1.sub b.1
  let hi ← hi.sub (fromU128 (ofBool borrow))
  return (hi, lo)

/-- Body of the `for i in (0..=shift).rev()` loop of `u512_div_by_u256`, on the
    remainder and the quotient. -/
def u512DivStep (d : U256) (i : Nat) (s : (U256 × U256) × U256) :
    Option ((U256 × U256) × U256) :=
  let dsh := u512ShlU256 d i
  if u512Gte s.1 dsh then do
    let rem ← u512Sub s.1 dsh
    if i < 256 then
      let quot ← s.2.add (u256Shl one i)
      return (rem, quot)
    else none
  else some s

/-- `u512_div_by_u256`. -/
def u512DivByU256 (n : U256 × U256) (d : U256) : Option U256 :=
  if n.1.isZero then (u256DivRem n.2 d).map Prod.fst
  else
    let nLz := n.1.leadingZeros
    let dLz := d.leadingZeros
    if nLz > dLz + 256 then some zero
    else
      -- `saturating_sub`
      let shift := 256 + dLz - nLz
      (DivMachine.run (u512DivStep d) (shift + 1) (n, zero)).map Prod.snd

/-- The shift drops no bit as long as the result fits in 512 bits. -/
theorem u512ShlU256_toNat {v : U256} {s : Nat} (h : v.toNat * 2 ^ s < 2 ^ 256 * 2 ^ 256) :
    u512ToNat (u512ShlU256 v s) = v.toNat * 2 ^ s := by
  have hv := v.toNat_lt
  unfold u512ShlU256
  by_cases h0 : s = 0
  · simp [h0, u512ToNat]
  rw [if_neg h0]
  by_cases h512 : 512 ≤ s
  · -- only zero survives a shift by 512 bits or more
    have hzero : v.toNat = 0 := by
      by_contra hne
      have h2 : 1 * 2 ^ s ≤ v.toNat * 2 ^ s := Nat.mul_le_mul_right _ (by omega)
      have h1 : 2 ^ 256 * 2 ^ 256 ≤ 2 ^ s := LongArithmetic.two_pow_mul_le h512
      omega
    rw [if_pos h512, hzero]
    simp [u512ToNat]
  rw [if_neg h512]
  by_cases h256 : 256 ≤ s
  · have hsplit : v.toNat * 2 ^ s = v.toNat * 2 ^ (s - 256) * 2 ^ 256 := by
      rw [Nat.mul_assoc, ← Nat.pow_add, Nat.sub_add_cancel h256]
    rw [if_pos h256, u512ToNat, u256Shl_toNat, toNat_zero, Nat.mod_eq_of_lt (by omega), hsplit,
      Nat.add_zero]
  · rw [if_neg h256, if_neg h0, u512ToNat, u256Shl_toNat, u256Shr_toNat]
    exact LongArithmetic.shl_split (by omega)

theorem lo_toNat_of_lt {n : U256 × U256} (h : u512ToNat n < 2 ^ 256) :
    n.2.toNat = u512ToNat n := by
  unfold u512ToNat at h ⊢
  omega

theorem u512Gte_eq (a b : U256 × U256) : u512Gte a b = decide (u512ToNat b ≤ u512ToNat a) := by
  have ha := a.2.toNat_lt
  have hb := b.2.toNat_lt
  have heq : a.1 = b.1 ↔ a.1.toNat = b.1.toNat := ⟨congrArg _, toNat_injective⟩
  rw [Bool.eq_iff_iff, decide_eq_true_eq]
  simp only [u512Gte, blt_eq, Bool.or_eq_true, Bool.and_eq_true, Bool.not_eq_true',
    decide_eq_true_eq, decide_eq_false_iff_not, beq_iff_eq, heq, u512ToNat]
  omega

/-- The borrow expression `MAX - b + a + 1` never overflows, so the subtraction
    succeeds whenever the minuend is large enough. -/
theorem u512Sub_of_le {a b : U256 × U256} (h : u512ToNat b ≤ u512ToNat a) :
    ∃ v, u512Sub a b = some v ∧ u512ToNat v = u512ToNat a - u512ToNat b := by
  have ha := a.2.toNat_lt
  have hb := b.2.toNat_lt
  simp only [u512ToNat] at h
  unfold u512Sub
  by_cases hborrow : a.2.toNat < b.2.toNat
  · have hmax := toNat_max
    obtain ⟨t1, ht1, ht1v⟩ := sub_of_le (a := U256.max) (b := b.2) (by omega)
    obtain ⟨t2, ht2, ht2v⟩ := exists_checked (n := t1.toNat + a.2.toNat) (by omega)
    obtain ⟨lo, hlo, hlov⟩ := exists_checked (n := t2.toNat + 1) (by omega)
    obtain ⟨hi1, hhi1, hhi1v⟩ := sub_of_le (a := a.1) (b := b.1) (by omega)
    have hone : (fromU128 (ofBool true)).toNat = 1 := by rw [toNat_fromU128]; simp [ofBool]
    obtain ⟨hi, hhi, hhiv⟩ := sub_of_le (a := hi1) (b := fromU128 (ofBool true)) (by omega)
    refine ⟨(hi, lo), ?_, ?_⟩
    · have hlo' : t2.add one = some lo := by rw [add_eq, toNat_one, hlo]
      have ht2' : t1.add a.2 = some t2 := by rw [add_eq, ht2]
      simp only [blt_eq, hborrow, decide_true, if_true, ht1, ht2', hlo', hhi1, hhi,
        Option.bind_eq_bind, Option.bind_some]
      rfl
    · simp only [u512ToNat]
      omega
  · obtain ⟨lo, hlo, hlov⟩ := sub_of_le (a := a.2) (b := b.2) (by omega)
    obtain ⟨hi1, hhi1, hhi1v⟩ := sub_of_le (a := a.1) (b := b.1) (by omega)
    have hzero : (fromU128 (ofBool false)).toNat = 0 := by rw [toNat_fromU128]; simp [ofBool]
    obtain ⟨hi, hhi, hhiv⟩ := sub_of_le (a := hi1) (b := fromU128 (ofBool false)) (by omega)
    refine ⟨(hi, lo), ?_, ?_⟩
    · simp only [blt_eq, hborrow, decide_false, Bool.false_eq_true, if_false, hlo, hhi1, hhi,
        Option.bind_eq_bind, Option.bind_some]
      rfl
    · simp only [u512ToNat]
      omega

/-- The loop of `u512_div_by_u256` is a division machine with a 256-bit quotient
    register: no shift of the divisor drops a bit. -/
def u512DivMachine (d : U256) : DivMachine ((U256 × U256) × U256) d.toNat 256 where
  rem s := u512ToNat s.1
  quot s := s.2.toNat
  inv k _ := ∀ i < k, d.toNat * 2 ^ i < 2 ^ 256 * 2 ^ 256
  step := u512DivStep d
  step_sub := by
    intro i s hinv hle hi hfit
    have hdsh := u512ShlU256_toNat (hinv i (by omega))
    obtain ⟨rem, hrem, hremv⟩ := u512Sub_of_le (a := s.1) (b := u512ShlU256 d i)
      (by rw [hdsh]; exact hle)
    obtain ⟨quot, hquot, hquotv⟩ := exists_checked (n := s.2.toNat + 2 ^ i) hfit
    have hadd : s.2.add (u256Shl one i) = some quot := by
      rw [add_eq, u256Shl_one_toNat (by omega), hquot]
    refine ⟨(rem, quot), ?_, fun j hj => hinv j (by omega), by rw [hremv, hdsh], hquotv⟩
    simp only [u512DivStep, u512Gte_eq, hdsh, hle, decide_true, if_true, hrem, hi, hadd,
      Option.bind_eq_bind, Option.bind_some, Option.pure_def]
  step_skip := by
    intro i s hinv hlt
    have hdsh := u512ShlU256_toNat (hinv i (by omega))
    refine ⟨s, ?_, fun j hj => hinv j (by omega), rfl, rfl⟩
    simp only [u512DivStep, u512Gte_eq, hdsh, Nat.not_le.mpr hlt, decide_false,
      Bool.false_eq_true, if_false]
  step_over := by
    intro i s hinv hle hi
    have hdsh := u512ShlU256_toNat (hinv i (by omega))
    obtain ⟨rem, hrem, -⟩ := u512Sub_of_le (a := s.1) (b := u512ShlU256 d i)
      (by rw [hdsh]; exact hle)
    simp only [u512DivStep, u512Gte_eq, hdsh, hle, decide_true, if_true, hrem, Nat.not_lt.mpr hi,
      if_false, Option.bind_eq_bind, Option.bind_some]

/-- The shift at which the loop of `u512_div_by_u256` starts, a `saturating_sub`. -/
def u512Shift (n : U256 × U256) (d : U256) : Nat := 256 + d.leadingZeros - n.1.leadingZeros

/-- From this shift down no bit of the divisor is lost, and the dividend is below the next
    multiple; the early return is never taken. -/
theorem u512_aligned {n : U256 × U256} {d : U256} (hd : d.toNat ≠ 0) (hn : n.1.toNat ≠ 0) :
    n.1.leadingZeros ≤ d.leadingZeros + 256 ∧
      (∀ i < u512Shift n d + 1, d.toNat * 2 ^ i < 2 ^ 256 * 2 ^ 256) ∧
      u512ToNat n < d.toNat * 2 ^ (u512Shift n d + 1) := by
  have hnw : n.1.toWord ≠ 0#256 := fun h => hn (by rw [← toNat_toWord, h]; rfl)
  have hdw : d.toWord ≠ 0#256 := fun h => hd (by rw [← toNat_toWord, h]; rfl)
  have hnUp := toNat_lt_two_pow_sub_leadingZeros n.1.toWord
  have hdUp := toNat_lt_two_pow_sub_leadingZeros d.toWord
  have hdLow := two_pow_le_toNat hdw
  have hnLz := leadingZeros_lt hnw
  have hdLz := leadingZeros_lt hdw
  rw [← leadingZeros_toWord, toNat_toWord] at hnUp hdUp hdLow
  rw [← leadingZeros_toWord] at hnLz hdLz
  have hnAll : u512ToNat n < 2 ^ (512 - n.1.leadingZeros) := by
    have hlo := n.2.toNat_lt
    have hexp : 512 - n.1.leadingZeros = 256 - n.1.leadingZeros + 256 := by omega
    rw [hexp, Nat.pow_add, u512ToNat]
    calc n.1.toNat * 2 ^ 256 + n.2.toNat < (n.1.toNat + 1) * 2 ^ 256 := by omega
      _ ≤ 2 ^ (256 - n.1.leadingZeros) * 2 ^ 256 := Nat.mul_le_mul_right _ hnUp
  refine ⟨by omega, ?_, ?_⟩
  · intro i hi
    rw [u512Shift] at hi
    exact LongArithmetic.mul_two_pow_lt_mul hdUp (by omega)
  · have h := LongArithmetic.lt_mul_two_pow hnAll hdLow
    have hexp : 512 - n.1.leadingZeros - (256 - d.leadingZeros - 1) = u512Shift n d + 1 := by
      rw [u512Shift]
      omega
    rwa [hexp] at h

/-- **`u512_div_by_u256` is exact**: the quotient when it fits, a panic otherwise. -/
theorem u512DivByU256_eq {n : U256 × U256} {d : U256} (hd : d.toNat ≠ 0) :
    u512DivByU256 n d = checked (u512ToNat n / d.toNat) := by
  have hpos : 0 < d.toNat := Nat.pos_of_ne_zero hd
  unfold u512DivByU256
  by_cases hn0 : n.1.toNat = 0
  · obtain ⟨q, r, hqr, hqv, -⟩ := u256DivRem_eq (n := n.2) hd
    rw [if_pos ((isZero_iff n.1).mpr hn0), hqr, Option.map_some]
    have hval : u512ToNat n = n.2.toNat := by rw [u512ToNat, hn0]; omega
    rw [hval]
    exact (checked_eq_some.mpr hqv).symm
  obtain ⟨hlz, hshift, hbound⟩ := u512_aligned hd hn0
  rw [if_neg (by simp [isZero_iff, hn0])]
  simp only
  rw [if_neg (by omega), ← u512Shift]
  by_cases hfit : u512ToNat n / d.toNat < 2 ^ 256
  · obtain ⟨s, hs, hq, -⟩ := (u512DivMachine d).run_eq_some hpos _ (n, zero) hshift hbound
      (by show zero.toNat + _ < _; rw [toNat_zero, Nat.zero_add]; exact hfit)
    have hval : s.2.toNat = u512ToNat n / d.toNat := by
      refine hq.trans ?_
      show zero.toNat + _ = _
      rw [toNat_zero, Nat.zero_add]
      rfl
    rw [show u512DivStep d = (u512DivMachine d).step from rfl, hs, Option.map_some,
      checked_eq_some.mpr hval]
  · rw [show u512DivStep d = (u512DivMachine d).step from rfl,
      (u512DivMachine d).run_eq_none _ (n, zero) hshift hbound (Nat.not_lt.mp hfit),
      Option.map_none, checked_of_le (Nat.not_lt.mp hfit)]

/-! ### `cam_muldiv` and `cam_muldivmod` on `U256` -/

/-- `U256::wide_muldiv`, the `U256` instance of `cam_muldiv`. -/
def camMuldiv (x y z : U256) : Option U256 :=
  if x.isZero || y.isZero then some zero
  else do
    let product ← u512Mul x y
    u512DivByU256 product z

/-- `U256::wide_muldivmod`, the `U256` instance of `cam_muldivmod`. -/
def camMuldivmod (x y z : U256) : Option (U256 × U256) :=
  if x.isZero || y.isZero then some (zero, zero)
  else do
    let product ← u512Mul x y
    let q ← u512DivByU256 product z
    let qz ← u512Mul q z
    let r ← u512Sub product qz
    return (q, r.2)

/-- **`cam_muldiv` is exact.** -/
theorem camMuldiv_eq {x y z : U256} (hz : z.toNat ≠ 0) :
    camMuldiv x y z = checked (x.toNat * y.toNat / z.toNat) := by
  unfold camMuldiv
  by_cases h0 : x.toNat = 0 ∨ y.toNat = 0
  · have hprod : x.toNat * y.toNat = 0 := Nat.mul_eq_zero.mpr h0
    rw [if_pos (by simpa [isZero_iff] using h0), hprod, Nat.zero_div]
    exact (checked_eq_some.mpr toNat_zero).symm
  · obtain ⟨n, hn, hnv⟩ := u512Mul_eq x y
    rw [if_neg (by simpa [isZero_iff] using h0), hn, Option.bind_eq_bind, Option.bind_some,
      u512DivByU256_eq hz, hnv]

/-- **`cam_muldivmod` is exact**: quotient and remainder, or a panic when the
    quotient does not fit. -/
theorem camMuldivmod_eq {x y z : U256} (hz : z.toNat ≠ 0) :
    camMuldivmod x y z = (checked (x.toNat * y.toNat / z.toNat)).bind fun q =>
      (checked (x.toNat * y.toNat % z.toNat)).map fun r => (q, r) := by
  have hzpos : 0 < z.toNat := Nat.pos_of_ne_zero hz
  unfold camMuldivmod
  by_cases h0 : x.toNat = 0 ∨ y.toNat = 0
  · have hprod : x.toNat * y.toNat = 0 := Nat.mul_eq_zero.mpr h0
    rw [if_pos (by simpa [isZero_iff] using h0), hprod, Nat.zero_div, Nat.zero_mod,
      checked_eq_some.mpr toNat_zero, Option.bind_some, Option.map_some]
  · obtain ⟨n, hn, hnv⟩ := u512Mul_eq x y
    rw [if_neg (by simpa [isZero_iff] using h0), hn, Option.bind_eq_bind, Option.bind_some,
      u512DivByU256_eq hz, hnv]
    by_cases hfit : x.toNat * y.toNat / z.toNat < 2 ^ 256
    · obtain ⟨q, hq, hqv⟩ := exists_checked hfit
      obtain ⟨qz, hqz, hqzv⟩ := u512Mul_eq q z
      have hdm := Nat.div_add_mod' (x.toNat * y.toNat) z.toNat
      rw [hqv] at hqzv
      have hle : u512ToNat qz ≤ u512ToNat n := by
        rw [hqzv, hnv]
        exact Nat.div_mul_le_self _ _
      obtain ⟨r, hr, hrv⟩ := u512Sub_of_le hle
      have hrmod : u512ToNat r = x.toNat * y.toNat % z.toNat := by
        rw [hrv, hqzv, hnv]
        omega
      -- the remainder is below `2 ^ 256`, so it is the low limb
      have hrlt : u512ToNat r < 2 ^ 256 := by
        rw [hrmod]
        exact (Nat.mod_lt _ hzpos).trans z.toNat_lt
      have hrlo : r.2.toNat = x.toNat * y.toNat % z.toNat := (lo_toNat_of_lt hrlt).trans hrmod
      rw [hq, checked_eq_some.mpr hrlo]
      simp only [Option.bind_eq_bind, Option.bind_some, hqz, hr, Option.map_some, Option.pure_def]
    · rw [checked_of_le (Nat.not_lt.mp hfit), Option.bind_none, Option.bind_eq_bind,
        Option.bind_none]

end CambrianLang.Core
