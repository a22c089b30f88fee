/-
  **Full-precision multiply-divide** (`stdlib/math.cam`).

  The library's `pure fn`s on `U256`, under the checked arithmetic of the
  language: `+`, `-` and `*` trap when the result leaves the type, `/` and `%` on
  a zero divisor.  Every function is specified by the value it returns, so that
  a caller's proof never opens it; the traps of the intermediate operations are
  part of the model, and a function equal to `.ok` has none.
-/
import CambrianLang.Lib.Trapping
import CambrianLang.Lib.LongArithmetic
import CambrianLang.Lib.NewtonIteration
import Mathlib.Algebra.Order.Floor.Div

namespace CambrianLang.Stdlib

open CheckedWord Trapping LongArithmetic
open ModularInverse

/-- The language's `U256`. -/
abbrev U256 := BitVec 256

/-! ### Machine constants -/

/-- `two_128`. -/
def two128 : Exec U256 := mul 170141183460469231731687303715884105728#256 2#256

/-- `u256_max`. -/
def u256Max : Exec U256 := do
  let t ← two128
  let m ← sub t 1#256
  let p ← mul t m
  add p m

/-- `2^128`. -/
def radix : U256 := BitVec.ofNat 256 (2 ^ 128)

/-- `2^256 - 1`. -/
def maxU256 : U256 := BitVec.allOnes 256

theorem radix_toNat : radix.toNat = 2 ^ 128 := by decide

theorem maxU256_toNat : maxU256.toNat = 2 ^ 256 - 1 := BitVec.toNat_allOnes

theorem two128_eq : two128 = .ok radix := by decide

theorem u256Max_eq : u256Max = .ok maxU256 := by decide

/-! ### Wrapping arithmetic -/

/-- `wadd`. -/
def wadd (a b : U256) : Exec U256 := do
  let headroom ← sub (← u256Max) b
  if headroom < a then do
    let d ← sub a headroom
    sub d 1#256
  else add a b

/-- `wsub`. -/
def wsub (a b : U256) : Exec U256 :=
  if b ≤ a then sub a b
  else do
    let gap ← sub b a
    let rest ← sub (← u256Max) gap
    add rest 1#256

/-- `wmul`. -/
def wmul (a b : U256) : Exec U256 := do
  let t ← two128
  let a0 ← mod a t
  let a1 ← div a t
  let b0 ← mod b t
  let b1 ← div b t
  let l ← mod (← mul a0 b1) t
  let r ← mod (← mul a1 b0) t
  let mid ← mod (← add l r) t
  wadd (← mul a0 b0) (← mul mid t)

/-- **`wadd` is addition modulo `2^256`** and never traps. -/
theorem wadd_eq (a b : U256) : wadd a b = .ok (a + b) := by
  have ha := a.isLt
  have hb := b.isLt
  have hmax := maxU256_toNat
  obtain ⟨headroom, hsub⟩ : ∃ h, sub maxU256 b = .ok h := ⟨_, sub_of_le (by omega)⟩
  have hroom := sub_eq_ok.mp hsub
  rw [wadd, u256Max_eq, ok_bind, hsub, ok_bind]
  split
  · next h =>
    rw [BitVec.lt_def] at h
    obtain ⟨d, hd⟩ : ∃ d, sub a headroom = .ok d := ⟨_, sub_of_le (by omega)⟩
    have hdv := sub_eq_ok.mp hd
    rw [hd, ok_bind, sub_eq_ok, BitVec.toNat_add]
    simp only [BitVec.toNat_ofNat]
    omega
  · next h =>
    rw [BitVec.lt_def] at h
    exact add_of_lt (by omega)

/-- **`wsub` is subtraction modulo `2^256`** and never traps. -/
theorem wsub_eq (a b : U256) : wsub a b = .ok (a - b) := by
  have ha := a.isLt
  have hb := b.isLt
  have hmax := maxU256_toNat
  rw [wsub, u256Max_eq]
  split
  · next h => exact sub_of_le (BitVec.le_def.mp h)
  · next h =>
    rw [BitVec.le_def] at h
    obtain ⟨gap, hgap⟩ : ∃ g, sub b a = .ok g := ⟨_, sub_of_le (by omega)⟩
    have hgapv := sub_eq_ok.mp hgap
    obtain ⟨rest, hrest⟩ : ∃ r, sub maxU256 gap = .ok r := ⟨_, sub_of_le (by omega)⟩
    have hrestv := sub_eq_ok.mp hrest
    rw [hgap, ok_bind, ok_bind, hrest, ok_bind, add_eq_ok, BitVec.toNat_sub]
    simp only [BitVec.toNat_ofNat]
    omega

/-- The limbs of a word: `a % 2^128` and `a / 2^128` never trap. -/
theorem limbs (a : U256) :
    ∃ a0 a1 : U256, mod a radix = .ok a0 ∧ div a radix = .ok a1 ∧
      a0.toNat = a.toNat % 2 ^ 128 ∧ a1.toNat = a.toNat / 2 ^ 128 := by
  have hpos : 0 < radix.toNat := by decide
  refine ⟨_, _, mod_of_pos hpos, div_of_pos hpos, ?_, ?_⟩
  · rw [BitVec.toNat_umod, radix_toNat]
  · rw [BitVec.toNat_udiv, radix_toNat]

theorem two_pow_256 : (2 : Nat) ^ 256 = 2 ^ 128 * 2 ^ 128 := Nat.pow_add 2 128 128

theorem toNat_limbs {a a0 a1 : U256} (h0 : a0.toNat = a.toNat % 2 ^ 128)
    (h1 : a1.toNat = a.toNat / 2 ^ 128) : a1.toNat * 2 ^ 128 + a0.toNat = a.toNat := by
  rw [h0, h1, Nat.div_add_mod']

/-- The product of two limbs fits. -/
theorem mul_limb {x y : U256} (hx : x.toNat < 2 ^ 128) (hy : y.toNat < 2 ^ 128) :
    ∃ z : U256, mul x y = .ok z ∧ z.toNat = x.toNat * y.toNat := by
  have hle := mul_le_of_lt hx hy
  refine ⟨x * y, mul_of_lt (by omega), BitVec.toNat_mul_of_lt (by omega)⟩

/-- **`wmul` is multiplication modulo `2^256`** and never traps. -/
theorem wmul_eq (a b : U256) : wmul a b = .ok (a * b) := by
  have hpos : 0 < radix.toNat := by decide
  have hr := radix_toNat
  have ha := a.isLt
  have hb := b.isLt
  obtain ⟨a0, a1, ha0, ha1, ha0v, ha1v⟩ := limbs a
  obtain ⟨b0, b1, hb0, hb1, hb0v, hb1v⟩ := limbs b
  obtain ⟨p01, h01, h01v⟩ := mul_limb (x := a0) (y := b1) (by omega) (by omega)
  obtain ⟨p10, h10, h10v⟩ := mul_limb (x := a1) (y := b0) (by omega) (by omega)
  obtain ⟨p00, h00, h00v⟩ := mul_limb (x := a0) (y := b0) (by omega) (by omega)
  obtain ⟨l, hl⟩ : ∃ l, mod p01 radix = .ok l := ⟨_, mod_of_pos hpos⟩
  obtain ⟨r, hr'⟩ : ∃ r, mod p10 radix = .ok r := ⟨_, mod_of_pos hpos⟩
  have hlv := (mod_eq_ok.mp hl).2
  have hrv := (mod_eq_ok.mp hr').2
  rw [hr] at hlv hrv
  obtain ⟨s, hs⟩ : ∃ s, add l r = .ok s := ⟨_, add_of_lt (by omega)⟩
  have hsv := add_eq_ok.mp hs
  obtain ⟨mid, hmid⟩ : ∃ m, mod s radix = .ok m := ⟨_, mod_of_pos hpos⟩
  have hmidv := (mod_eq_ok.mp hmid).2
  rw [hr] at hmidv
  have hscaled : mul mid radix = .ok (mid * radix) := mul_of_lt (by rw [hr]; omega)
  simp only [wmul, two128_eq, ok_bind, ha0, ha1, hb0, hb1, h01, h10, h00, hl, hr', hs, hmid,
    hscaled, wadd_eq]
  congr 1
  apply BitVec.eq_of_toNat_eq
  -- the middle column counts modulo `2^128` only
  have hcol : mid.toNat = (p01.toNat + p10.toNat) % 2 ^ 128 := by
    rw [hmidv, hsv, hlv, hrv, ← Nat.add_mod]
  rw [BitVec.toNat_add, BitVec.toNat_mul, BitVec.toNat_mul, Nat.add_mod_mod, hr, hcol, h00v,
    h01v, h10v, ← toNat_limbs ha0v ha1v, ← toNat_limbs hb0v hb1v, mul_limbs, two_pow_256]
  exact low_column _ _ _ (2 ^ 128)

/-! ### The double-length product -/

/-- `mul_hi`. -/
def mulHi (a b : U256) : Exec U256 := do
  let t ← two128
  let umax ← u256Max
  let a0 ← mod a t
  let a1 ← div a t
  let b0 ← mod b t
  let b1 ← div b t
  let p00 ← mul a0 b0
  let p01 ← mul a0 b1
  let p10 ← mul a1 b0
  let p11 ← mul a1 b1
  let room ← sub umax p01
  let midCarry := if room < p10 then 1#256 else 0#256
  let mid ← wadd p01 p10
  let midLoShifted ← mul (← mod mid t) t
  let room ← sub umax p00
  let loCarry := if room < midLoShifted then 1#256 else 0#256
  let s ← add p11 (← div mid t)
  let s ← add s (← mul midCarry t)
  add s loCarry

/-- The carry of a wrapping sum, detected before the sum is taken. -/
theorem carry_of_room {x y room : U256} (h : sub maxU256 x = .ok room) :
    x.toNat + y.toNat =
      (if room < y then 1#256 else 0#256).toNat * 2 ^ 256 + (x + y).toNat := by
  have hx := x.isLt
  have hy := y.isLt
  have hmax := maxU256_toNat
  have hroom := sub_eq_ok.mp h
  rw [BitVec.toNat_add]
  split
  · next hlt =>
    rw [BitVec.lt_def] at hlt
    simp only [BitVec.toNat_ofNat]
    omega
  · next hlt =>
    rw [BitVec.lt_def] at hlt
    simp only [BitVec.toNat_ofNat]
    omega

/-- The high word of a product is a word. -/
theorem mul_div_lt (a b : U256) : a.toNat * b.toNat / 2 ^ 256 < 2 ^ 256 :=
  Nat.div_lt_of_lt_mul (Nat.mul_lt_mul'' a.isLt b.isLt)

/-- **`mul_hi` is the high word of the product** and never traps. -/
theorem mulHi_eq (a b : U256) :
    ∃ hi : U256, mulHi a b = .ok hi ∧ hi.toNat = a.toNat * b.toNat / 2 ^ 256 := by
  have hpos : 0 < radix.toNat := by decide
  have hr := radix_toNat
  have hmax := maxU256_toNat
  have ha := a.isLt
  have hb := b.isLt
  obtain ⟨a0, a1, ha0, ha1, ha0v, ha1v⟩ := limbs a
  obtain ⟨b0, b1, hb0, hb1, hb0v, hb1v⟩ := limbs b
  obtain ⟨p00, h00, h00v⟩ := mul_limb (x := a0) (y := b0) (by omega) (by omega)
  obtain ⟨p01, h01, h01v⟩ := mul_limb (x := a0) (y := b1) (by omega) (by omega)
  obtain ⟨p10, h10, h10v⟩ := mul_limb (x := a1) (y := b0) (by omega) (by omega)
  obtain ⟨p11, h11, h11v⟩ := mul_limb (x := a1) (y := b1) (by omega) (by omega)
  obtain ⟨room1, hroom1⟩ : ∃ r, sub maxU256 p01 = .ok r := ⟨_, sub_of_le (by omega)⟩
  obtain ⟨midLo, midHi, hmidLo, hmidHi, hmidLov, hmidHiv⟩ := limbs (p01 + p10)
  obtain ⟨shifted, hshifted⟩ : ∃ s, mul midLo radix = .ok s :=
    ⟨_, mul_of_lt (by rw [hr]; omega)⟩
  have hshiftedv := mul_eq_ok.mp hshifted
  obtain ⟨room0, hroom0⟩ : ∃ r, sub maxU256 p00 = .ok r := ⟨_, sub_of_le (by omega)⟩
  have hc1 := carry_of_room (y := p10) hroom1
  have hc0 := carry_of_room (y := shifted) hroom0
  generalize hm : (if room1 < p10 then 1#256 else 0#256) = midCarry at hc1
  generalize hl : (if room0 < shifted then 1#256 else 0#256) = loCarry at hc0
  -- the value of the last three additions, which bounds each of them
  have hval : p11.toNat + midHi.toNat + midCarry.toNat * 2 ^ 128 + loCarry.toNat =
      a.toNat * b.toNat / 2 ^ 256 := by
    have hmid : p01.toNat + p10.toNat =
        midCarry.toNat * (2 ^ 128 * 2 ^ 128) + (midHi.toNat * 2 ^ 128 + midLo.toNat) := by
      rw [← two_pow_256, hc1, toNat_limbs hmidLov hmidHiv]
    have hlow : p00.toNat + midLo.toNat * 2 ^ 128 =
        loCarry.toNat * (2 ^ 128 * 2 ^ 128) + (p00 + shifted).toNat := by
      rw [← two_pow_256, ← hr, ← hshiftedv, hc0]
    have hprod := limb_carries (p := p11.toNat) hmid hlow
    rw [h00v, h01v, h10v, h11v, ← mul_limbs, toNat_limbs ha0v ha1v, toNat_limbs hb0v hb1v,
      ← two_pow_256, ← h11v] at hprod
    rw [hprod, Nat.mul_comm _ (2 ^ 256), Nat.mul_add_div (by positivity),
      Nat.div_eq_of_lt (p00 + shifted).isLt, Nat.add_zero]
  have hlt := mul_div_lt a b
  obtain ⟨s1, hs1⟩ : ∃ s, add p11 midHi = .ok s := ⟨_, add_of_lt (by omega)⟩
  have hs1v := add_eq_ok.mp hs1
  obtain ⟨c, hc⟩ : ∃ c, mul midCarry radix = .ok c := ⟨_, mul_of_lt (by rw [hr]; omega)⟩
  have hcv := mul_eq_ok.mp hc
  rw [hr] at hcv
  obtain ⟨s2, hs2⟩ : ∃ s, add s1 c = .ok s := ⟨_, add_of_lt (by omega)⟩
  have hs2v := add_eq_ok.mp hs2
  obtain ⟨hi, hhi⟩ : ∃ s, add s2 loCarry = .ok s := ⟨_, add_of_lt (by omega)⟩
  have hhiv := add_eq_ok.mp hhi
  refine ⟨hi, ?_, by omega⟩
  simp only [mulHi, two128_eq, u256Max_eq, ok_bind, ha0, ha1, hb0, hb1, h00, h01, h10, h11,
    hroom1, wadd_eq, hmidLo, hshifted, hroom0, hmidHi, hs1, hm, hl, hc, hs2, hhi]

/-- The two words of the product. -/
theorem hi_lo (a b : U256) {hi : U256} (h : hi.toNat = a.toNat * b.toNat / 2 ^ 256) :
    hi.toNat * 2 ^ 256 + (a * b).toNat = a.toNat * b.toNat := by
  rw [h, BitVec.toNat_mul, Nat.div_add_mod']

/-! ### The remainder of the double-length product -/

/-- The `bit` of a step of the `fold` in `mulmod_512`. -/
def mulmodBit (hi lo shift : U256) : Exec U256 :=
  if 256#256 ≤ shift then do
    let s ← sub shift 256#256
    return (hi >>> s.toNat) &&& 1#256
  else return (lo >>> shift.toNat) &&& 1#256

/-- The body of the `fold`. -/
def mulmodStep (hi lo c rem i : U256) : Exec U256 := do
  let shift ← sub 511#256 i
  let bit ← mulmodBit hi lo shift
  let carry := rem >>> 255
  let twice ← wadd rem rem
  let doubled ← add twice bit
  if carry = 1#256 then wsub doubled c
  else if c ≤ doubled then sub doubled c
  else pure doubled

/-- The `fold` over the first `n` indices of `0..512`. -/
def mulmodFold (hi lo c : U256) (n : Nat) : Exec U256 :=
  (List.range n).foldlM (fun rem i => mulmodStep hi lo c rem (BitVec.ofNat 256 i)) 0#256

/-- `mulmod_512`. -/
def mulmod512 (a b c : U256) : Exec U256 := do
  let hi ← mulHi a b
  let lo ← wmul a b
  mulmodFold hi lo c 512

/-- The bit a step of the `fold` brings in. -/
theorem mulmodBit_eq (hi lo : U256) {i : Nat} (hi512 : i < 512) :
    ∃ shift bit : U256, sub 511#256 (BitVec.ofNat 256 i) = .ok shift ∧
      mulmodBit hi lo shift = .ok bit ∧
      bit.toNat = (hi.toNat * 2 ^ 256 + lo.toNat) / 2 ^ (511 - i) % 2 := by
  have hiv : (BitVec.ofNat 256 i).toNat = i := by
    rw [BitVec.toNat_ofNat, Nat.mod_eq_of_lt (by omega)]
  have h511 : (511#256).toNat = 511 := by simp
  have h256 : (256#256).toNat = 256 := by simp
  have hone : (1#256).toNat = 2 ^ 1 - 1 := by simp
  obtain ⟨shift, hshift⟩ : ∃ s, sub 511#256 (BitVec.ofNat 256 i) = .ok s :=
    ⟨_, sub_of_le (by omega)⟩
  have hshiftv : shift.toNat = 511 - i := by
    have hs := sub_eq_ok.mp hshift
    omega
  unfold mulmodBit
  by_cases hge : 256#256 ≤ shift
  · have hgev := BitVec.le_def.mp hge
    obtain ⟨s, hs⟩ : ∃ s, sub shift 256#256 = .ok s := ⟨_, sub_of_le hgev⟩
    have hsv : s.toNat = 511 - i - 256 := by
      have hsub := sub_eq_ok.mp hs
      omega
    refine ⟨shift, (hi >>> s.toNat) &&& 1#256, hshift, by simp [if_pos hge, hs], ?_⟩
    rw [toNat_and_mask hone, toNat_shr, hsv, bit_of_hi lo.isLt (by omega), Nat.pow_one]
  · have hgev : ¬256 ≤ 511 - i := by rwa [BitVec.le_def, h256, hshiftv] at hge
    refine ⟨shift, (lo >>> shift.toNat) &&& 1#256, hshift, by simp [if_neg hge], ?_⟩
    rw [toNat_and_mask hone, toNat_shr, hshiftv, bit_of_lo (by omega), Nat.pow_one]

/-- A step of the `fold` doubles the remainder and brings a bit in, modulo `c`. -/
theorem mulmodStep_eq (hi lo : U256) {c rem : U256} {i : Nat} (hi512 : i < 512)
    (hrem : rem.toNat < c.toNat) :
    ∃ r, mulmodStep hi lo c rem (BitVec.ofNat 256 i) = .ok r ∧
      r.toNat = (2 * rem.toNat + (hi.toNat * 2 ^ 256 + lo.toNat) / 2 ^ (511 - i) % 2) %
        c.toNat := by
  obtain ⟨shift, bit, hshift, hbit, hbitv⟩ := mulmodBit_eq hi lo hi512
  have hb2 : bit.toNat < 2 := by
    rw [hbitv]
    exact Nat.mod_lt _ (by omega)
  rw [← hbitv]
  have hc := c.isLt
  have hrlt := rem.isLt
  have htwice : (rem + rem).toNat = (rem.toNat + rem.toNat) % 2 ^ 256 := BitVec.toNat_add _ _
  obtain ⟨doubled, hdoubled⟩ : ∃ d, add (rem + rem) bit = .ok d := ⟨_, add_of_lt (by omega)⟩
  have hdv := add_eq_ok.mp hdoubled
  -- the value before the reduction is below `2c`, so one subtraction is enough
  have hreduce : ∀ n : Nat, n < 2 * c.toNat →
      n % c.toNat = if c.toNat ≤ n then n - c.toNat else n := by
    intro n hn
    split
    · next hle => rw [Nat.mod_eq_sub_mod hle, Nat.mod_eq_of_lt (by omega)]
    · next hlt => exact Nat.mod_eq_of_lt (by omega)
  rw [hreduce _ (by omega)]
  have hcarry : (rem >>> 255 : U256) = 1#256 ↔ 2 ^ 255 ≤ rem.toNat := by
    rw [← BitVec.toNat_inj, toNat_shr]
    simp only [BitVec.toNat_ofNat]
    omega
  unfold mulmodStep
  simp only [hshift, ok_bind, hbit, wadd_eq, hdoubled]
  by_cases hcar : (rem >>> 255 : U256) = 1#256
  · -- the doubled value left the word, and the wrapping subtraction brings it back
    have hbig := hcarry.mp hcar
    rw [if_pos hcar, wsub_eq, if_pos (by omega)]
    refine ⟨_, rfl, ?_⟩
    rw [BitVec.toNat_sub]
    omega
  · have hsmall : ¬2 ^ 255 ≤ rem.toNat := fun h => hcar (hcarry.mpr h)
    rw [if_neg hcar]
    by_cases hle : c ≤ doubled
    · have hlev := BitVec.le_def.mp hle
      rw [if_pos hle, if_pos (by omega)]
      refine ⟨_, sub_of_le hlev, ?_⟩
      rw [BitVec.toNat_sub_of_le hle]
      omega
    · have hlev : ¬c.toNat ≤ doubled.toNat := fun h => hle (BitVec.le_def.mpr h)
      rw [if_neg hle, if_neg (by omega)]
      exact ⟨_, pure_eq_ok _, by omega⟩

/-- After `n` steps the remainder is that of the leading `n` bits. -/
theorem mulmodFold_eq (hi lo : U256) {c : U256} (hc : 0 < c.toNat) {n : Nat} (hn : n ≤ 512) :
    ∃ r, mulmodFold hi lo c n = .ok r ∧
      r.toNat = (hi.toNat * 2 ^ 256 + lo.toNat) / 2 ^ (512 - n) % c.toNat := by
  induction n with
  | zero =>
    have hlt : hi.toNat * 2 ^ 256 + lo.toNat < 2 ^ 512 := by
      have h1 := hi.isLt
      have h2 := lo.isLt
      omega
    exact ⟨0#256, rfl, by rw [Nat.div_eq_of_lt hlt]; simp⟩
  | succ n ih =>
    obtain ⟨rem, hrem, hremv⟩ := ih (by omega)
    have hlt : rem.toNat < c.toNat := by
      rw [hremv]
      exact Nat.mod_lt _ hc
    have hn : n < 512 := by omega
    obtain ⟨r, hr, hrv⟩ := mulmodStep_eq hi lo hn hlt
    refine ⟨r, ?_, ?_⟩
    · unfold mulmodFold at hrem ⊢
      rw [List.range_succ, List.foldlM_append, hrem]
      simp [hr]
    · have hidx : 512 - n = 511 - n + 1 := by omega
      have hidx' : 512 - (n + 1) = 511 - n := by omega
      rw [hrv, hremv, hidx, hidx', ← div_two_pow_mod]

/-- **`mulmod_512` is the remainder of the exact product.** -/
theorem mulmod512_eq (a b : U256) {c : U256} (hc : 0 < c.toNat) :
    ∃ r, mulmod512 a b c = .ok r ∧ r.toNat = a.toNat * b.toNat % c.toNat := by
  obtain ⟨hi, hhi, hhiv⟩ := mulHi_eq a b
  obtain ⟨r, hr, hrv⟩ := mulmodFold_eq hi (a * b) hc (Nat.le_refl 512)
  rw [hi_lo a b hhiv] at hrv
  refine ⟨r, ?_, by simpa using hrv⟩
  simp only [mulmod512, hhi, ok_bind, wmul_eq, hr]

/-! ### The inverse of an odd denominator -/

/-- One step of `inv_mod_2_256`. -/
def invStep (d inv : U256) : Exec U256 := do
  let p ← wmul d inv
  let s ← wsub 2#256 p
  wmul inv s

/-- `inv_mod_2_256`. -/
def invMod2_256 (d : U256) : Exec U256 := do
  let seed ← wmul 3#256 d
  let inv0 := seed ^^^ 2#256
  let inv1 ← invStep d inv0
  let inv2 ← invStep d inv1
  let inv3 ← invStep d inv2
  let inv4 ← invStep d inv3
  let inv5 ← invStep d inv4
  invStep d inv5

theorem invStep_eq (d inv : U256) : invStep d inv = .ok (newton d inv) := by
  simp only [invStep, wmul_eq, wsub_eq, ok_bind]
  rfl

/-- **`inv_mod_2_256` inverts every odd word**, and never traps on any. -/
theorem invMod2_256_eq (d : U256) :
    ∃ inv, invMod2_256 d = .ok inv ∧ (d.getLsbD 0 = true → d * inv = 1) := by
  refine ⟨(newton d)^[6] (3#256 * d ^^^ 2#256), ?_, ?_⟩
  · simp only [invMod2_256, wmul_eq, ok_bind, invStep_eq]
    rfl
  · intro hodd
    exact mul_newton_seed (by omega) (by omega) hodd

/-! ### The wide path -/

/-- `mul_div_wide`. -/
def mulDivWide (n1 n0 c : U256) : Exec U256 := do
  let m ← wsub 0#256 c
  let twos := c &&& m
  let m ← wsub 0#256 twos
  let carryMul ← wadd (← div m twos) 1#256
  let low ← div n0 twos
  let high ← wmul n1 carryMul
  let numerator := low ||| high
  let inv ← invMod2_256 (← div c twos)
  wmul numerator inv

/-- `carry_mul`: `2^256 / 2^k` as a wrapped word. -/
theorem carryMul_eq {twos q : U256} {k : Nat} (hk : k < 256) (htwos : twos.toNat = 2 ^ k)
    (hq : div (0#256 - twos) twos = .ok q) :
    (q + 1#256 : U256).toNat = 2 ^ (256 - k) % 2 ^ 256 := by
  have hpow : 2 ^ 256 = 2 ^ k * 2 ^ (256 - k) := by
    rw [← Nat.pow_add, Nat.add_sub_cancel' (by omega)]
  have hpos : 0 < 2 ^ k := by positivity
  have hge : 1 ≤ 2 ^ (256 - k) := Nat.one_le_two_pow
  have hlt : 2 ^ k < 2 ^ 256 := Nat.pow_lt_pow_right (by omega) hk
  have hneg : (0#256 - twos).toNat = 2 ^ k * (2 ^ (256 - k) - 1) := by
    rw [BitVec.toNat_sub, htwos, Nat.mul_sub, ← hpow, Nat.mul_one]
    simp only [BitVec.toNat_ofNat]
    omega
  have hqv : q.toNat = 2 ^ (256 - k) - 1 := by
    rw [(div_eq_ok.mp hq).2, hneg, htwos, Nat.mul_div_cancel_left _ hpos]
  rw [BitVec.toNat_add, hqv]
  simp only [BitVec.toNat_ofNat]
  congr 1
  omega

/-- The numerator: the double word shifted right by `k`, reduced modulo `2^256`. -/
theorem numerator_eq {n1 n0 low mult : U256} {k : Nat} (hk : k < 256)
    (hlow : low.toNat = n0.toNat / 2 ^ k) (hmult : mult.toNat = 2 ^ (256 - k) % 2 ^ 256) :
    (low ||| n1 * mult).toNat = (n1.toNat * 2 ^ 256 + n0.toNat) / 2 ^ k % 2 ^ 256 := by
  have hpow : 2 ^ 256 = 2 ^ k * 2 ^ (256 - k) := by
    rw [← Nat.pow_add, Nat.add_sub_cancel' (by omega)]
  have hposk : 0 < 2 ^ k := by positivity
  have hlowlt : low.toNat < 2 ^ (256 - k) := by
    rw [hlow]
    apply Nat.div_lt_of_lt_mul
    rw [← hpow]
    exact n0.isLt
  -- the shifted high word is a multiple of `2^(256 - k)`, so the `or` is a sum
  have hhigh : (n1 * mult).toNat = n1.toNat % 2 ^ k * 2 ^ (256 - k) := by
    rw [BitVec.toNat_mul, hmult, Nat.mul_mod_mod, hpow, Nat.mul_mod_mul_right]
  have hor : (low ||| n1 * mult).toNat = n1.toNat % 2 ^ k * 2 ^ (256 - k) + low.toNat := by
    rw [BitVec.toNat_or, hhigh, Nat.or_comm, ← Nat.shiftLeft_eq,
      Nat.shiftLeft_add_eq_or_of_lt hlowlt]
  have hdiv : (n1.toNat * 2 ^ 256 + n0.toNat) / 2 ^ k =
      n1.toNat * 2 ^ (256 - k) + low.toNat := by
    rw [hpow, Nat.mul_left_comm, Nat.mul_add_div hposk, hlow]
  rw [hor, hdiv, hpow, Nat.add_mod, Nat.mul_mod_mul_right,
    Nat.mod_eq_of_lt (a := low.toNat)
      (hlowlt.trans_le (Nat.le_mul_of_pos_left _ hposk))]
  have hsum : n1.toNat % 2 ^ k * 2 ^ (256 - k) + low.toNat < 2 ^ 256 := by
    rw [← hor]
    exact BitVec.isLt _
  rw [hpow] at hsum
  exact (Nat.mod_eq_of_lt hsum).symm

/-- The wide path traps on no numerator. -/
theorem mulDivWide_isOk (n1 n0 : U256) {c : U256} (hc : 0 < c.toNat) :
    ∃ z, mulDivWide n1 n0 c = .ok z := by
  have hne : c ≠ 0#256 := by
    rintro rfl
    simp at hc
  obtain ⟨k, m, hk, hm, hcv⟩ := exists_odd_part hne
  have htpos : 0 < (c &&& -c).toNat := by
    rw [and_neg_eq_twoPow hm hcv, BitVec.toNat_twoPow_of_lt hk]
    positivity
  obtain ⟨inv, hinv, -⟩ := invMod2_256_eq (c / (c &&& -c))
  have hneg : (0#256 - c : U256) = -c := BitVec.zero_sub c
  simp only [mulDivWide, wsub_eq, ok_bind, hneg, wadd_eq, wmul_eq, div_of_pos htpos, hinv]
  exact ⟨_, rfl⟩

/-- **The wide path divides exactly**: a double word that is a multiple of `c` is
    divided by it when the quotient is a word. -/
theorem mulDivWide_eq {n1 n0 c q : U256} (hc : 0 < c.toNat)
    (hmul : n1.toNat * 2 ^ 256 + n0.toNat = q.toNat * c.toNat) :
    mulDivWide n1 n0 c = .ok q := by
  have hne : c ≠ 0#256 := by
    rintro rfl
    simp at hc
  obtain ⟨k, m, hk, hm, hcv⟩ := exists_odd_part hne
  have hposk : 0 < 2 ^ k := by positivity
  have htwos := and_neg_eq_twoPow hm hcv
  have htwosv : (BitVec.twoPow 256 k).toNat = 2 ^ k := BitVec.toNat_twoPow_of_lt hk
  generalize BitVec.twoPow 256 k = twos at htwos htwosv
  have htpos : 0 < twos.toNat := by rw [htwosv]; exact hposk
  obtain ⟨mult, hmult⟩ : ∃ t, div (0#256 - twos) twos = .ok t := ⟨_, div_of_pos htpos⟩
  have hmultv := carryMul_eq hk htwosv hmult
  obtain ⟨low, hlow⟩ : ∃ t, div n0 twos = .ok t := ⟨_, div_of_pos htpos⟩
  have hlowv : low.toNat = n0.toNat / 2 ^ k := by rw [(div_eq_ok.mp hlow).2, htwosv]
  obtain ⟨d, hd⟩ : ∃ t, div c twos = .ok t := ⟨_, div_of_pos htpos⟩
  have hdv : d.toNat = m := by
    rw [(div_eq_ok.mp hd).2, htwosv, hcv, Nat.mul_div_cancel_left _ hposk]
  obtain ⟨inv, hinv, hone⟩ := invMod2_256_eq d
  have hodd : d.getLsbD 0 = true := by
    rw [BitVec.getLsbD, hdv, Nat.testBit_zero, decide_eq_true hm]
  -- what is left of the numerator is `q` times what is left of the denominator
  have hnum : low ||| n1 * (mult + 1#256) = q * d := by
    apply BitVec.eq_of_toNat_eq
    rw [numerator_eq hk hlowv hmultv, hmul, hcv, Nat.mul_left_comm,
      Nat.mul_div_cancel_left _ hposk, BitVec.toNat_mul, hdv]
  have hneg : (0#256 - c : U256) = -c := BitVec.zero_sub c
  simp only [mulDivWide, wsub_eq, ok_bind, hneg, htwos, hmult, wadd_eq, hlow, wmul_eq, hd, hinv,
    hnum]
  rw [BitVec.mul_assoc, hone hodd]
  exact congrArg Except.ok (mul_one q)

/-! ### Multiply-divide -/

/-- `mul_div_reject`. -/
def mulDivReject (hi c : U256) : Exec U256 :=
  if c = 0#256 then div hi c else do add hi (← u256Max)

/-- `mul_div_checked`. -/
def mulDivChecked (a b c hi : U256) : Exec U256 := do
  let lo ← wmul a b
  if hi = 0#256 then div lo c
  else do
    let rem ← mulmod512 a b c
    let borrow := if lo < rem then 1#256 else 0#256
    let n1 ← sub hi borrow
    let n0 ← wsub lo rem
    mulDivWide n1 n0 c

/-- `mul_div`. -/
def mulDiv (a b c : U256) : Exec U256 := do
  let hi ← mulHi a b
  if hi < c then mulDivChecked a b c hi else mulDivReject hi c

/-- The `r` of `mul_div_up`. -/
def mulDivUpRem (a b c : U256) : Exec U256 := do
  let hi ← mulHi a b
  if hi = 0#256 then do mod (← wmul a b) c else mulmod512 a b c

/-- `mul_div_up`. -/
def mulDivUp (a b c : U256) : Exec U256 := do
  let q ← mulDiv a b c
  let r ← mulDivUpRem a b c
  if r = 0#256 then return q else add q 1#256

/-- The product less its remainder, as the double word the wide path takes. -/
theorem sub_remainder {hi lo r n base : Nat} (h : hi * base + lo = n) (hlo : lo < base)
    (hr : r ≤ n) (hrb : r < base) :
    (if lo < r then 1 else 0) ≤ hi ∧
      (hi - (if lo < r then 1 else 0)) * base + (base - r + lo) % base = n - r := by
  split
  · next hlt =>
    cases hi with
    | zero => omega
    | succ hi =>
      rw [Nat.succ_mul] at h
      rw [Nat.succ_sub_one, Nat.mod_eq_of_lt (by omega)]
      omega
  · next hge =>
    have hsplit : base - r + lo = lo - r + base := by omega
    rw [Nat.sub_zero, hsplit, Nat.add_mod_right, Nat.mod_eq_of_lt (by omega)]
    omega

theorem mulDivChecked_eq {a b c hi q : U256} (hhi : hi.toNat = a.toNat * b.toNat / 2 ^ 256)
    (hc : 0 < c.toNat) (hq : q.toNat = a.toNat * b.toNat / c.toNat) :
    mulDivChecked a b c hi = .ok q := by
  have hprod := hi_lo a b hhi
  simp only [mulDivChecked, wmul_eq, ok_bind]
  split
  · next h0 =>
    subst h0
    have hlo : (a * b : U256).toNat = a.toNat * b.toNat := by simpa using hprod
    rw [div_eq_ok, hlo]
    exact ⟨hc, hq⟩
  · next hne =>
    obtain ⟨r, hr, hrv⟩ := mulmod512_eq a b hc
    have hle : r.toNat ≤ a.toNat * b.toNat := by
      rw [hrv]
      exact Nat.mod_le _ _
    obtain ⟨hborrow, hnum⟩ := sub_remainder hprod (BitVec.isLt _) hle r.isLt
    have hb : (if (a * b : U256) < r then 1#256 else 0#256 : U256).toNat =
        if (a * b : U256).toNat < r.toNat then 1 else 0 := by
      simp only [BitVec.lt_def]
      split <;> rfl
    rw [← hb] at hborrow hnum
    simp only [hr, ok_bind, sub_of_le hborrow, wsub_eq]
    apply mulDivWide_eq hc
    rw [BitVec.toNat_sub_of_le (BitVec.le_def.mpr hborrow), BitVec.toNat_sub (a * b) r, hnum, hrv,
      hq]
    have hdm := Nat.div_add_mod' (a.toNat * b.toNat) c.toNat
    omega

/-- The guard of `mul_div` is that there is a quotient and it is a word. -/
theorem hi_lt_iff {a b c hi : U256} (hhi : hi.toNat = a.toNat * b.toNat / 2 ^ 256) :
    hi < c ↔ 0 < c.toNat ∧ a.toNat * b.toNat / c.toNat < 2 ^ 256 := by
  rw [BitVec.lt_def, hhi]
  rcases Nat.eq_zero_or_pos c.toNat with h0 | hpos
  · simp [h0]
  · rw [Nat.div_lt_iff_lt_mul (by positivity), Nat.div_lt_iff_lt_mul hpos, Nat.mul_comm c.toNat]
    simp [hpos]

/-- **`mul_div` is exact**: the quotient when there is one and it is a word, and
    else the panic of the condition that failed. -/
theorem mulDiv_eq (a b c : U256) :
    mulDiv a b c =
      if c = 0#256 then .error .divisionByZero
      else if a.toNat * b.toNat / c.toNat < 2 ^ 256 then
        .ok (BitVec.ofNat 256 (a.toNat * b.toNat / c.toNat))
      else .error .overflow := by
  obtain ⟨hi, hhi, hhiv⟩ := mulHi_eq a b
  have hguard := hi_lt_iff (c := c) hhiv
  simp only [mulDiv, hhi, ok_bind]
  by_cases h0 : c = 0#256
  · subst h0
    rw [if_neg (by simp), mulDivReject, if_pos rfl, div_zero, if_pos rfl]
  have hpos := toNat_pos h0
  rw [if_neg h0]
  by_cases hq : a.toNat * b.toNat / c.toNat < 2 ^ 256
  · rw [if_pos (hguard.mpr ⟨hpos, hq⟩), if_pos hq, mulDivChecked_eq hhiv hpos]
    rw [BitVec.toNat_ofNat, Nat.mod_eq_of_lt hq]
  · have hge : ¬hi < c := fun h => hq (hguard.mp h).2
    have hle : c.toNat ≤ hi.toNat := by
      rw [BitVec.lt_def] at hge
      omega
    rw [if_neg hge, if_neg hq, mulDivReject, if_neg h0, u256Max_eq, ok_bind]
    apply add_of_le
    rw [maxU256_toNat]
    omega

theorem mulDiv_eq_ok {a b c z : U256} :
    mulDiv a b c = .ok z ↔ 0 < c.toNat ∧ z.toNat = a.toNat * b.toNat / c.toNat := by
  rw [mulDiv_eq]
  by_cases h0 : c = 0#256
  · subst h0
    simp
  have hpos := toNat_pos h0
  have hz := z.isLt
  rw [if_neg h0]
  split
  · next hq =>
    rw [Except.ok.injEq, ← BitVec.toNat_inj, BitVec.toNat_ofNat, Nat.mod_eq_of_lt hq]
    simp only [hpos, true_and, eq_comm]
  · next hq =>
    simp only [reduceCtorEq, hpos, true_and, false_iff]
    omega

/-- Rounding up adds one exactly when there is a remainder. -/
theorem ceilDiv_eq_div_add {n c : Nat} (hc : 0 < c) :
    n ⌈/⌉ c = n / c + if n % c = 0 then 0 else 1 := by
  have hmod := Nat.mod_lt n hc
  have hdm := Nat.div_add_mod n c
  rw [Nat.ceilDiv_eq_add_pred_div]
  split
  · next h0 =>
    have hsplit : n + c - 1 = c * (n / c) + (c - 1) := by omega
    have hlow : (c - 1) / c = 0 := Nat.div_eq_of_lt (Nat.sub_lt hc Nat.one_pos)
    rw [hsplit, Nat.mul_add_div hc, hlow]
  · next h0 =>
    have hsplit : n + c - 1 = c * (n / c + 1) + (n % c - 1) := by
      rw [Nat.mul_succ]
      omega
    have hlow : (n % c - 1) / c = 0 := Nat.div_eq_of_lt (by omega)
    rw [hsplit, Nat.mul_add_div hc, hlow, Nat.add_zero]

/-- Both ways to the remainder give it. -/
theorem mulDivUpRem_eq (a b : U256) {c : U256} (hc : 0 < c.toNat) :
    ∃ r, mulDivUpRem a b c = .ok r ∧ r.toNat = a.toNat * b.toNat % c.toNat := by
  obtain ⟨hi, hhi, hhiv⟩ := mulHi_eq a b
  simp only [mulDivUpRem, hhi, ok_bind]
  split
  · next hz =>
    have hprod := hi_lo a b hhiv
    have hlo : (a * b : U256).toNat = a.toNat * b.toNat := by simpa [hz] using hprod
    rw [wmul_eq, ok_bind, mod_of_pos hc]
    exact ⟨_, rfl, by rw [BitVec.toNat_umod, hlo]⟩
  · exact mulmod512_eq a b hc

/-- **`mul_div_up` is exact**, and traps when the ceiling is not a word. -/
theorem mulDivUp_eq (a b c : U256) :
    mulDivUp a b c =
      if c = 0#256 then .error .divisionByZero
      else if (a.toNat * b.toNat) ⌈/⌉ c.toNat < 2 ^ 256 then
        .ok (BitVec.ofNat 256 ((a.toNat * b.toNat) ⌈/⌉ c.toNat))
      else .error .overflow := by
  by_cases h0 : c = 0#256
  · subst h0
    simp [mulDivUp, mulDiv_eq]
  have hpos := toNat_pos h0
  rw [if_neg h0, ceilDiv_eq_div_add hpos, mulDivUp, mulDiv_eq, if_neg h0]
  by_cases hq : a.toNat * b.toNat / c.toNat < 2 ^ 256
  swap
  · rw [if_neg hq, if_neg (by omega), error_bind]
  obtain ⟨r, hr, hrv⟩ := mulDivUpRem_eq a b hpos
  have hzero : r = 0#256 ↔ a.toNat * b.toNat % c.toNat = 0 := by
    rw [← BitVec.toNat_inj, hrv]
    simp
  have hqv : (BitVec.ofNat 256 (a.toNat * b.toNat / c.toNat)).toNat =
      a.toNat * b.toNat / c.toNat := by rw [BitVec.toNat_ofNat, Nat.mod_eq_of_lt hq]
  rw [if_pos hq, ok_bind, hr, ok_bind]
  by_cases hrem : a.toNat * b.toNat % c.toNat = 0
  · rw [if_pos (hzero.mpr hrem), if_pos hrem, Nat.add_zero, if_pos hq, pure_eq_ok]
  · have hrne : ¬r = 0#256 := fun h => hrem (hzero.mp h)
    rw [if_neg hrne, if_neg hrem]
    split
    · next hlt =>
      rw [add_eq_ok, hqv, BitVec.toNat_ofNat, Nat.mod_eq_of_lt hlt]
      rfl
    · next hge =>
      apply add_of_le
      rw [hqv]
      exact Nat.not_lt.mp hge

theorem mulDivUp_eq_ok {a b c z : U256} :
    mulDivUp a b c = .ok z ↔
      0 < c.toNat ∧ z.toNat = (a.toNat * b.toNat) ⌈/⌉ c.toNat := by
  rw [mulDivUp_eq]
  by_cases h0 : c = 0#256
  · subst h0
    simp
  have hpos := toNat_pos h0
  have hz := z.isLt
  rw [if_neg h0]
  split
  · next hq =>
    rw [Except.ok.injEq, ← BitVec.toNat_inj, BitVec.toNat_ofNat, Nat.mod_eq_of_lt hq]
    simp only [hpos, true_and, eq_comm]
  · next hq =>
    simp only [reduceCtorEq, hpos, true_and, false_iff]
    omega

/-- The call returns: none of its operations traps. -/
def Returns {α : Type} (m : Exec α) : Prop := ∃ z, m = .ok z

/-- **`mul_div` and `mul_div_up` are exact.**  Each is the rounded quotient of the
    512-bit product when the denominator is not zero and the result is a word,
    and else the panic of the condition that failed; below them no function
    traps once the denominator is not zero. -/
theorem mulDiv_exact (a b c : U256) :
    (mulDiv a b c =
      if c = 0#256 then .error .divisionByZero
      else if a.toNat * b.toNat / c.toNat < 2 ^ 256 then
        .ok (BitVec.ofNat 256 (a.toNat * b.toNat / c.toNat))
      else .error .overflow) ∧
    (mulDivUp a b c =
      if c = 0#256 then .error .divisionByZero
      else if (a.toNat * b.toNat) ⌈/⌉ c.toNat < 2 ^ 256 then
        .ok (BitVec.ofNat 256 ((a.toNat * b.toNat) ⌈/⌉ c.toNat))
      else .error .overflow) ∧
    (∀ x y, Returns (mulHi x y) ∧ Returns (wmul x y) ∧ Returns (wadd x y) ∧
      Returns (wsub x y) ∧ Returns (invMod2_256 x)) ∧
    (0 < c.toNat → Returns (mulmod512 a b c) ∧ ∀ n1 n0, Returns (mulDivWide n1 n0 c)) := by
  refine ⟨mulDiv_eq a b c, mulDivUp_eq a b c, ?_, ?_⟩
  · intro x y
    obtain ⟨hi, hhi, -⟩ := mulHi_eq x y
    obtain ⟨inv, hinv, -⟩ := invMod2_256_eq x
    exact ⟨⟨hi, hhi⟩, ⟨_, wmul_eq x y⟩, ⟨_, wadd_eq x y⟩, ⟨_, wsub_eq x y⟩, ⟨inv, hinv⟩⟩
  · intro hc
    obtain ⟨r, hr, -⟩ := mulmod512_eq a b hc
    exact ⟨⟨r, hr⟩, fun n1 n0 => mulDivWide_isOk n1 n0 hc⟩

/-- `⌊(2^256 - 1)² / (2^256 - 1)⌋`: the product needs both words. -/
theorem mulDiv_exact_max :
    mulDiv maxU256 maxU256 maxU256 = .ok maxU256 ∧ Returns (mulmod512 maxU256 maxU256 maxU256) := by
  have h := mulDiv_exact maxU256 maxU256 maxU256
  refine ⟨?_, (h.2.2.2 (by decide)).1⟩
  rw [h.1, if_neg (by decide), if_pos (by decide)]
  rfl

end CambrianLang.Stdlib
