/-
  **The `std::math` helpers of the EVM back end**
  (`codegen/solidity/core/pure.rs`).

  The source emits these as Solidity text; here each Solidity function is a
  definition on 256-bit words under Solidity 0.8 rules: `+`, `-`, `*` revert on
  overflow, `/` and `%` on a zero divisor, `<<` and `>>` drop bits silently.  The
  theorems say what each helper computes and exactly when it reverts.
-/
import CambrianLang.Lib.CheckedWord
import CambrianLang.Lib.LongArithmetic

namespace CambrianLang.Solidity

open CheckedWord LongArithmetic

/-- `uint256`. -/
abbrev Word := BitVec 256

/-- `type(uint256).max`. -/
def maxWord : Word := BitVec.allOnes 256

/-- `type(uint128).max`. -/
def mask128 : Word := BitVec.ofNat 256 (2 ^ 128 - 1)

theorem maxWord_toNat : maxWord.toNat = 2 ^ 256 - 1 := BitVec.toNat_allOnes

theorem and_mask128_toNat (x : Word) : (x &&& mask128).toNat = x.toNat % 2 ^ 128 :=
  toNat_and_mask (by decide)

/-! ### `_cam_clz` -/

/-- One line `if (x >= 2^k) { x >>= k; n -= k; }` of `_cam_clz`. -/
def clzStep (k : Nat) (x n : Word) : Option (Word × Word) :=
  if 2 ^ k ≤ x.toNat then do
    let n ← csub n (BitVec.ofNat 256 k)
    return (x >>> k, n)
  else some (x, n)

/-- `_cam_clz`. -/
def camClz (x : Word) : Option Word :=
  if x = 0#256 then some 256#256
  else do
    let (x, n) ← clzStep 128 x 255#256
    let (x, n) ← clzStep 64 x n
    let (x, n) ← clzStep 32 x n
    let (x, n) ← clzStep 16 x n
    let (x, n) ← clzStep 8 x n
    let (x, n) ← clzStep 4 x n
    let (x, n) ← clzStep 2 x n
    if 2 ≤ x.toNat then csub n 1#256 else return n

/-- What holds after the line of `_cam_clz` that leaves at most `k` bits: `n`
    still misses the bit length of what is left of `x0`. -/
def ClzInv (x0 : Word) (k : Nat) (x n : Word) : Prop :=
  0 < x.toNat ∧ x.toNat.size ≤ k ∧ n.toNat + x0.toNat.size = 255 + x.toNat.size

theorem clzStep_inv {x0 x n : Word} {k : Nat} (hk : k < 256) (h : ClzInv x0 (2 * k) x n) :
    ∃ x' n', clzStep k x n = some (x', n') ∧ ClzInv x0 k x' n' := by
  obtain ⟨hpos, hsize, hn⟩ := h
  have hx0 := size_le_width x0
  unfold clzStep
  by_cases hle : 2 ^ k ≤ x.toNat
  · have hdiv := size_div_two_pow hle
    have hdpos : 0 < (x.toNat / 2 ^ k).size :=
      Nat.size_pos.mpr (Nat.div_pos hle (by positivity))
    have hkv : (BitVec.ofNat 256 k).toNat = k := by
      rw [BitVec.toNat_ofNat, Nat.mod_eq_of_lt (by omega)]
    obtain ⟨n', hn', hnv⟩ := csub_of_le (x := n) (y := BitVec.ofNat 256 k) (by omega)
    rw [if_pos hle, hn']
    refine ⟨x >>> k, n', rfl, ?_, ?_, ?_⟩
    · rw [toNat_shr]
      exact Nat.div_pos hle (by positivity)
    · rw [toNat_shr]
      omega
    · rw [toNat_shr]
      omega
  · rw [if_neg hle]
    exact ⟨x, n, rfl, hpos, Nat.size_le.mpr (Nat.not_le.mp hle), hn⟩

/-- **`_cam_clz` counts leading zeros** and never reverts. -/
theorem camClz_eq (x : Word) : ∃ n, camClz x = some n ∧ n.toNat = leadingZeros x := by
  unfold camClz
  by_cases h0 : x = 0#256
  · rw [if_pos h0, h0]
    exact ⟨256#256, rfl, by simp [leadingZeros]⟩
  rw [if_neg h0]
  have hinit : ClzInv x (2 * 128) x 255#256 := ⟨toNat_pos h0, size_le_width x, by simp⟩
  obtain ⟨x1, n1, h1, hinv1⟩ := clzStep_inv (by omega) hinit
  obtain ⟨x2, n2, h2, hinv2⟩ := clzStep_inv (k := 64) (by omega) hinv1
  obtain ⟨x3, n3, h3, hinv3⟩ := clzStep_inv (k := 32) (by omega) hinv2
  obtain ⟨x4, n4, h4, hinv4⟩ := clzStep_inv (k := 16) (by omega) hinv3
  obtain ⟨x5, n5, h5, hinv5⟩ := clzStep_inv (k := 8) (by omega) hinv4
  obtain ⟨x6, n6, h6, hinv6⟩ := clzStep_inv (k := 4) (by omega) hinv5
  obtain ⟨x7, n7, h7, hpos, hsize, hn⟩ := clzStep_inv (k := 2) (by omega) hinv6
  have hx := size_le_width x
  have hsize7 : x7.toNat.size = if 2 ≤ x7.toNat then 2 else 1 := by
    have h7pos := Nat.size_pos.mpr hpos
    split
    · next h =>
      have hlt : 1 < x7.toNat.size := Nat.lt_size.mpr (by omega)
      omega
    · next h =>
      have hle : x7.toNat.size ≤ 1 := Nat.size_le.mpr (by omega)
      omega
  simp only [h1, h2, h3, h4, h5, h6, h7, Option.bind_eq_bind, Option.bind_some]
  by_cases h2le : 2 ≤ x7.toNat
  · have hone : (1#256).toNat = 1 := by simp
    rw [if_pos h2le] at hsize7 ⊢
    obtain ⟨n, hn', hnv⟩ := csub_of_le (x := n7) (y := 1#256) (by omega)
    exact ⟨n, hn', by unfold leadingZeros; omega⟩
  · rw [if_neg h2le] at hsize7 ⊢
    exact ⟨n7, rfl, by unfold leadingZeros; omega⟩

/-! ### 256 × 256 → 512 -/

/-- `_cam_u512_mul_lo`. -/
def camU512MulLo (a0 a1 b0 b1 mask : Word) : Option (Word × Word) := do
  let ll ← cmul a0 b0
  let lh ← cmul a0 b1
  let t ← cadd (ll >>> 128) (lh &&& mask)
  let c1 := t >>> 128
  let hl ← cmul a1 b0
  let t ← cadd (t &&& mask) (hl &&& mask)
  let c1 ← cadd c1 (t >>> 128)
  let nLo := ((t &&& mask) <<< 128) ||| (ll &&& mask)
  return (nLo, c1)

/-- `_cam_u512_mul_hi`. -/
def camU512MulHi (a0 a1 b0 b1 mask c1 : Word) : Option Word := do
  let lh ← cmul a0 b1
  let hl ← cmul a1 b0
  let hh ← cmul a1 b1
  let t ← cadd (lh >>> 128) (hl >>> 128)
  let c2 := t >>> 128
  let t ← cadd (t &&& mask) (hh &&& mask)
  let c2 ← cadd c2 (t >>> 128)
  let t ← cadd (t &&& mask) c1
  let c2 ← cadd c2 (t >>> 128)
  let top ← cadd (hh >>> 128) c2
  return (top <<< 128) ||| (t &&& mask)

/-- `_cam_u512_mul`. -/
def camU512Mul (a b : Word) : Option (Word × Word) := do
  let mask := mask128
  let a0 := a &&& mask
  let a1 := a >>> 128
  let b0 := b &&& mask
  let b1 := b >>> 128
  let (nLo, c1) ← camU512MulLo a0 a1 b0 b1 mask
  let nHi ← camU512MulHi a0 a1 b0 b1 mask c1
  return (nHi, nLo)

/-- The number a pair of words `(hi, lo)` stands for. -/
@[irreducible] def wideToNat (n : Word × Word) : Nat := n.1.toNat * 2 ^ 256 + n.2.toNat

theorem shr128_lt (x : Word) : (x >>> 128).toNat < 2 ^ 128 := by
  have hx := x.isLt
  rw [toNat_shr]
  omega

theorem and_mask128_lt (x : Word) : (x &&& mask128).toNat < 2 ^ 128 := by
  rw [and_mask128_toNat]
  omega

/-- A word is its two 128-bit halves. -/
theorem halves (x : Word) : (x >>> 128).toNat * 2 ^ 128 + (x &&& mask128).toNat = x.toNat := by
  rw [toNat_shr, and_mask128_toNat]
  omega

/-- Products of halves do not overflow. -/
theorem cmul_halves {x y : Word} (hx : x.toNat < 2 ^ 128) (hy : y.toNat < 2 ^ 128) :
    ∃ z, cmul x y = some z ∧ z.toNat = x.toNat * y.toNat := by
  have hle := mul_le_of_lt hx hy
  exact cmul_of_lt (by omega)

theorem bind_some_eq {α β : Type} (a : α) (f : α → Option β) : (some a >>= f) = f a := rfl

/-- A sum of halves: a half and a carry. -/
theorem cadd_halves {x y : Word} (hx : x.toNat < 2 ^ 128) (hy : y.toNat < 2 ^ 128) :
    ∃ t, cadd x y = some t ∧
      (t >>> 128).toNat * 2 ^ 128 + (t &&& mask128).toNat = x.toNat + y.toNat ∧
      (t >>> 128).toNat ≤ 1 := by
  obtain ⟨t, ht, htv⟩ := cadd_of_lt (x := x) (y := y) (by omega)
  refine ⟨t, ht, (halves t).trans htv, ?_⟩
  rw [toNat_shr]
  omega

/-- The low words: the low limb of the product and the carry into the next column. -/
theorem camU512MulLo_eq {a0 a1 b0 b1 ll lh hl : Word} (hll : cmul a0 b0 = some ll)
    (hlh : cmul a0 b1 = some lh) (hhl : cmul a1 b0 = some hl) :
    ∃ nLo c1 p1, camU512MulLo a0 a1 b0 b1 mask128 = some (nLo, c1) ∧ c1.toNat ≤ 2 ∧
      nLo.toNat = p1 * 2 ^ 128 + (ll &&& mask128).toNat ∧
      (ll >>> 128).toNat + (lh &&& mask128).toNat + (hl &&& mask128).toNat =
        p1 + c1.toNat * 2 ^ 128 := by
  obtain ⟨t, ht, htSum, htCarry⟩ := cadd_halves (shr128_lt ll) (and_mask128_lt lh)
  obtain ⟨u, hu, huSum, huCarry⟩ := cadd_halves (and_mask128_lt t) (and_mask128_lt hl)
  obtain ⟨c1, hc1, hc1v⟩ := cadd_of_lt (x := t >>> 128) (y := u >>> 128) (by omega)
  have hlast : 0 * 2 ^ 128 + (u &&& mask128).toNat = (u &&& mask128).toNat + 0 := by
    rw [Nat.zero_mul, Nat.zero_add, Nat.add_zero]
  have hcol := column_carries htSum huSum hlast
  refine ⟨((u &&& mask128) <<< 128) ||| (ll &&& mask128), c1, (u &&& mask128).toNat, ?_, by omega,
    toNat_shl_or (and_mask128_lt ll) ?_, ?_⟩
  · rw [camU512MulLo, hll, bind_some_eq, hlh, bind_some_eq, ht, bind_some_eq, hhl, bind_some_eq, hu,
      bind_some_eq, hc1, bind_some_eq]
    rfl
  · have huLo := and_mask128_lt u
    omega
  · rw [hc1v]
    exact hcol

/-- The high words: the top limb fits because the product does. -/
theorem camU512MulHi_eq {a0 a1 b0 b1 lh hl hh c1 : Word} (hlh : cmul a0 b1 = some lh)
    (hhl : cmul a1 b0 = some hl) (hhh : cmul a1 b1 = some hh) (hc1 : c1.toNat ≤ 2)
    (htop : ∀ p2 c2, (lh >>> 128).toNat + (hl >>> 128).toNat + (hh &&& mask128).toNat + c1.toNat =
      p2 + c2 * 2 ^ 128 → (hh >>> 128).toNat + c2 < 2 ^ 128) :
    ∃ nHi p2 c2, camU512MulHi a0 a1 b0 b1 mask128 c1 = some nHi ∧
      nHi.toNat = ((hh >>> 128).toNat + c2) * 2 ^ 128 + p2 ∧
      (lh >>> 128).toNat + (hl >>> 128).toNat + (hh &&& mask128).toNat + c1.toNat =
        p2 + c2 * 2 ^ 128 := by
  have hc1' : c1.toNat < 2 ^ 128 := hc1.trans_lt (by decide)
  obtain ⟨t, ht, htSum, htCarry⟩ := cadd_halves (shr128_lt lh) (shr128_lt hl)
  obtain ⟨u, hu, huSum, huCarry⟩ := cadd_halves (and_mask128_lt t) (and_mask128_lt hh)
  obtain ⟨v, hv, hvSum, hvCarry⟩ := cadd_halves (and_mask128_lt u) hc1'
  obtain ⟨c2, hc2, hc2v⟩ := cadd_of_lt (x := t >>> 128) (y := u >>> 128) (by omega)
  obtain ⟨c2', hc2', hc2v'⟩ := cadd_of_lt (x := c2) (y := v >>> 128) (by omega)
  have hcol := column_carries htSum huSum hvSum
  rw [← hc2v, ← hc2v'] at hcol
  have hfit := htop _ _ hcol
  obtain ⟨top, htop', htopv⟩ := cadd_of_lt (x := hh >>> 128) (y := c2') (by omega)
  refine ⟨(top <<< 128) ||| (v &&& mask128), (v &&& mask128).toNat, c2'.toNat, ?_, ?_, hcol⟩
  · rw [camU512MulHi, hlh, bind_some_eq, hhl, bind_some_eq, hhh, bind_some_eq, ht, bind_some_eq, hu,
      bind_some_eq, hc2, bind_some_eq, hv, bind_some_eq, hc2', bind_some_eq, htop', bind_some_eq]
    rfl
  · have hvLo := and_mask128_lt v
    rw [toNat_shl_or hvLo (by omega), htopv]

/-- **`_cam_u512_mul` is the exact 512-bit product**; no checked addition or
    multiplication of limbs reverts and no shift drops a bit. -/
theorem camU512Mul_eq (a b : Word) :
    ∃ n, camU512Mul a b = some n ∧ wideToNat n = a.toNat * b.toNat := by
  obtain ⟨ll, hll, hllv⟩ := cmul_halves (and_mask128_lt a) (and_mask128_lt b)
  obtain ⟨lh, hlh, hlhv⟩ := cmul_halves (and_mask128_lt a) (shr128_lt b)
  obtain ⟨hl, hhl, hhlv⟩ := cmul_halves (shr128_lt a) (and_mask128_lt b)
  obtain ⟨hh, hhh, hhhv⟩ := cmul_halves (shr128_lt a) (shr128_lt b)
  obtain ⟨nLo, c1, p1, hlo, hc1le, hnLo, hcol1⟩ := camU512MulLo_eq hll hlh hhl
  have hprod := mul_limbs (a >>> 128).toNat (a &&& mask128).toNat (b >>> 128).toNat
    (b &&& mask128).toNat (2 ^ 128)
  rw [halves, halves, ← hllv, ← hlhv, ← hhlv, ← hhhv] at hprod
  have hbound := mul_le_of_lt a.isLt b.isLt
  have hcolumns := fun p2 c2 (h2 : _ = p2 + c2 * 2 ^ 128) => limb_columns (halves ll) (halves lh)
    (halves hl) (halves hh) hcol1 h2
  have htop : ∀ p2 c2, (lh >>> 128).toNat + (hl >>> 128).toNat + (hh &&& mask128).toNat +
      c1.toNat = p2 + c2 * 2 ^ 128 → (hh >>> 128).toNat + c2 < 2 ^ 128 := by
    intro p2 c2 h2
    have hsum := hcolumns p2 c2 h2
    rw [← hprod] at hsum
    clear hcol1 h2 hprod hllv hlhv hhlv hhhv
    omega
  obtain ⟨nHi, p2, c2, hhi, hnHi, hcol2⟩ := camU512MulHi_eq hlh hhl hhh hc1le htop
  refine ⟨(nHi, nLo), ?_, ?_⟩
  · simp only [camU512Mul, hlo, hhi, Option.bind_eq_bind, Option.bind_some, Option.pure_def]
  · have hsum := hcolumns p2 c2 hcol2
    rw [← hprod] at hsum
    have hsq : (2 : Nat) ^ 256 = 2 ^ 128 * 2 ^ 128 := by norm_num
    simp only [wideToNat]
    rw [hnHi, hnLo, hsq]
    exact hsum

/-! ### 512 / 256 -/

/-- `_cam_u512_shl_u256`. -/
def camU512ShlU256 (v shift : Word) : Option (Word × Word) :=
  if shift = 0#256 then some (0#256, v)
  else if 512 ≤ shift.toNat then some (0#256, 0#256)
  else if 256 ≤ shift.toNat then do
    let s ← csub shift 256#256
    if s = 0#256 then return (v, 0#256) else return (v <<< s.toNat, 0#256)
  else do
    let s ← csub 256#256 shift
    return (v >>> s.toNat, v <<< shift.toNat)

/-- `_cam_u512_gte`. -/
def camU512Gte (aHi aLo bHi bLo : Word) : Bool :=
  decide (bHi < aHi) || (aHi == bHi && decide (bLo ≤ aLo))

/-- `_cam_u512_sub`. -/
def camU512Sub (aHi aLo bHi bLo : Word) : Option (Word × Word) := do
  let borrow : Word := if aLo < bLo then 1#256 else 0#256
  let lo ← if borrow = 1#256 then do
      let t ← csub maxWord bLo
      let t ← cadd t aLo
      cadd t 1#256
    else csub aLo bLo
  let hi ← csub aHi bHi
  let hi ← csub hi borrow
  return (hi, lo)

/-- Body of the `while (i > 0)` loop of `_cam_u512_div_u256` after
    `unchecked { --i; }`, on the remainder `(n_hi, n_lo)` and `quot`. -/
def camU512DivStep (d : Word) (i : Nat) (s : (Word × Word) × Word) :
    Option ((Word × Word) × Word) := do
  let dsh ← camU512ShlU256 d (BitVec.ofNat 256 i)
  if camU512Gte s.1.1 s.1.2 dsh.1 dsh.2 then do
    let rem ← camU512Sub s.1.1 s.1.2 dsh.1 dsh.2
    -- `require(i < 256, "wide_muldiv result exceeds U256::MAX")`
    if i < 256 then
      let quot ← cadd s.2 (1#256 <<< i)
      return (rem, quot)
    else none
  else return s

/-- The initial value of `i` in `_cam_u512_div_u256`. -/
def camDivStart (nLz dLz : Word) : Option Word := do
  let i ← cadd 256#256 dLz
  let i ← csub i nLz
  cadd i 1#256

/-- `_cam_u512_div_u256`. -/
def camU512DivU256 (nHi nLo d : Word) : Option Word :=
  if nHi = 0#256 then cdiv nLo d
  else do
    let nLz ← camClz nHi
    let dLz ← camClz d
    let most ← cadd dLz 256#256
    if most < nLz then return 0#256
    else do
      let i ← camDivStart nLz dLz
      let s ← DivMachine.run (camU512DivStep d) i.toNat ((nHi, nLo), 0#256)
      return s.2

/-- The shift drops no bit as long as the result fits in 512 bits. -/
theorem camU512ShlU256_eq {v : Word} {i : Nat} (hi : i < 512)
    (h : v.toNat * 2 ^ i < 2 ^ 256 * 2 ^ 256) :
    ∃ n, camU512ShlU256 v (BitVec.ofNat 256 i) = some n ∧ wideToNat n = v.toNat * 2 ^ i := by
  have hiv : (BitVec.ofNat 256 i).toNat = i := by
    rw [BitVec.toNat_ofNat, Nat.mod_eq_of_lt (by omega)]
  have h256 : (256#256).toNat = 256 := by simp
  unfold camU512ShlU256
  by_cases h0 : i = 0
  · subst h0
    exact ⟨(0#256, v), by simp, by simp [wideToNat]⟩
  have hne : BitVec.ofNat 256 i ≠ 0#256 := fun hcon => h0 (by
    have hz := congrArg BitVec.toNat hcon
    rw [hiv] at hz
    simpa using hz)
  rw [if_neg hne, hiv, if_neg (by omega)]
  by_cases hge : 256 ≤ i
  · obtain ⟨s, hs, hsv⟩ := csub_of_le (x := BitVec.ofNat 256 i) (y := 256#256) (by omega)
    rw [hiv, h256] at hsv
    have hsplit : v.toNat * 2 ^ i = v.toNat * 2 ^ (i - 256) * 2 ^ 256 := by
      rw [Nat.mul_assoc, ← Nat.pow_add, Nat.sub_add_cancel hge]
    have hfit : v.toNat * 2 ^ (i - 256) < 2 ^ 256 := by omega
    rw [if_pos hge, hs, Option.bind_eq_bind, Option.bind_some]
    by_cases hs0 : s = 0#256
    · have hi256 : i - 256 = 0 := by
        rw [← hsv, hs0]
        simp
      rw [if_pos hs0]
      refine ⟨(v, 0#256), rfl, ?_⟩
      rw [hsplit, hi256]
      simp [wideToNat]
    · rw [if_neg hs0]
      refine ⟨(v <<< s.toNat, 0#256), rfl, ?_⟩
      rw [wideToNat, toNat_shl, hsv, Nat.mod_eq_of_lt hfit, hsplit]
      simp
  · obtain ⟨s, hs, hsv⟩ := csub_of_le (x := 256#256) (y := BitVec.ofNat 256 i) (by omega)
    rw [hiv, h256] at hsv
    rw [if_neg hge, hs, Option.bind_eq_bind, Option.bind_some]
    refine ⟨(v >>> s.toNat, v <<< i), rfl, ?_⟩
    rw [wideToNat, toNat_shl, toNat_shr, hsv]
    exact shl_split (by omega)

theorem camU512Gte_eq (a b : Word × Word) :
    camU512Gte a.1 a.2 b.1 b.2 = decide (wideToNat b ≤ wideToNat a) := by
  have ha := a.2.isLt
  have hb := b.2.isLt
  rw [Bool.eq_iff_iff, decide_eq_true_eq]
  simp only [camU512Gte, Bool.or_eq_true, Bool.and_eq_true, decide_eq_true_eq, beq_iff_eq,
    BitVec.lt_def, BitVec.le_def, ← BitVec.toNat_inj, wideToNat]
  omega

/-- The borrow expression `max - b + a + 1` never overflows, so the subtraction
    succeeds whenever the minuend is large enough. -/
theorem camU512Sub_of_le {a b : Word × Word} (h : wideToNat b ≤ wideToNat a) :
    ∃ v, camU512Sub a.1 a.2 b.1 b.2 = some v ∧ wideToNat v = wideToNat a - wideToNat b := by
  have ha := a.2.isLt
  have hb := b.2.isLt
  have hmax := maxWord_toNat
  have hone : (1#256).toNat = 1 := by simp
  have hzero : (0#256).toNat = 0 := by simp
  simp only [wideToNat] at h
  unfold camU512Sub
  by_cases hborrow : a.2.toNat < b.2.toNat
  · obtain ⟨t1, ht1, ht1v⟩ := csub_of_le (x := maxWord) (y := b.2) (by omega)
    obtain ⟨t2, ht2, ht2v⟩ := cadd_of_lt (x := t1) (y := a.2) (by omega)
    obtain ⟨lo, hlo, hlov⟩ := cadd_of_lt (x := t2) (y := 1#256) (by omega)
    obtain ⟨hi1, hhi1, hhi1v⟩ := csub_of_le (x := a.1) (y := b.1) (by omega)
    obtain ⟨hi, hhi, hhiv⟩ := csub_of_le (x := hi1) (y := 1#256) (by omega)
    refine ⟨(hi, lo), ?_, by simp only [wideToNat]; omega⟩
    simp only [BitVec.lt_def, hborrow, if_true, ht1, ht2, hlo, hhi1, hhi, Option.bind_eq_bind,
      Option.bind_some, Option.pure_def]
  · have hne : (0#256 : Word) ≠ 1#256 := by decide
    obtain ⟨lo, hlo, hlov⟩ := csub_of_le (x := a.2) (y := b.2) (by omega)
    obtain ⟨hi1, hhi1, hhi1v⟩ := csub_of_le (x := a.1) (y := b.1) (by omega)
    obtain ⟨hi, hhi, hhiv⟩ := csub_of_le (x := hi1) (y := 0#256) (by omega)
    refine ⟨(hi, lo), ?_, by simp only [wideToNat]; omega⟩
    simp only [BitVec.lt_def, hborrow, if_false, hne, hlo, hhi1, hhi, Option.bind_eq_bind,
      Option.bind_some, Option.pure_def]

/-- A quotient bit, as the loop adds it. -/
theorem one_shl_toNat {i : Nat} (h : 2 ^ i < 2 ^ 256) : (1#256 <<< i).toNat = 2 ^ i := by
  have hone : (1#256).toNat = 1 := by simp
  rw [toNat_shl, hone, Nat.one_mul, Nat.mod_eq_of_lt h]

/-- The loop of `_cam_u512_div_u256` is a division machine with a 256-bit quotient
    register: while it runs no shift of the divisor drops a bit. -/
def camU512DivMachine (d : Word) : DivMachine ((Word × Word) × Word) d.toNat 256 where
  rem s := wideToNat s.1
  quot s := s.2.toNat
  inv k _ := ∀ i < k, i < 512 ∧ d.toNat * 2 ^ i < 2 ^ 256 * 2 ^ 256
  step := camU512DivStep d
  step_sub := by
    intro i s hinv hle hi hfit
    obtain ⟨hi512, hshift⟩ := hinv i (by omega)
    obtain ⟨dsh, hdsh, hdshv⟩ := camU512ShlU256_eq hi512 hshift
    obtain ⟨rem, hrem, hremv⟩ := camU512Sub_of_le (a := s.1) (b := dsh) (by rw [hdshv]; exact hle)
    have hbit : (1#256 <<< i).toNat = 2 ^ i := one_shl_toNat (by omega)
    obtain ⟨quot, hquot, hquotv⟩ := cadd_of_lt (x := s.2) (y := 1#256 <<< i)
      (by rw [hbit]; exact hfit)
    refine ⟨(rem, quot), ?_, fun j hj => hinv j (by omega), by rw [hremv, hdshv],
      by rw [hquotv, hbit]⟩
    simp only [camU512DivStep, hdsh, camU512Gte_eq s.1 dsh, hdshv, hle, decide_true, if_true, hrem, hi,
      hquot, Option.bind_eq_bind, Option.bind_some, Option.pure_def]
  step_skip := by
    intro i s hinv hlt
    obtain ⟨hi512, hshift⟩ := hinv i (by omega)
    obtain ⟨dsh, hdsh, hdshv⟩ := camU512ShlU256_eq hi512 hshift
    refine ⟨s, ?_, fun j hj => hinv j (by omega), rfl, rfl⟩
    simp only [camU512DivStep, hdsh, camU512Gte_eq s.1 dsh, hdshv, Nat.not_le.mpr hlt, decide_false,
      Bool.false_eq_true, if_false, Option.bind_eq_bind, Option.bind_some, Option.pure_def]
  step_over := by
    intro i s hinv hle hi
    obtain ⟨hi512, hshift⟩ := hinv i (by omega)
    obtain ⟨dsh, hdsh, hdshv⟩ := camU512ShlU256_eq hi512 hshift
    obtain ⟨rem, hrem, -⟩ := camU512Sub_of_le (a := s.1) (b := dsh) (by rw [hdshv]; exact hle)
    simp only [camU512DivStep, hdsh, camU512Gte_eq s.1 dsh, hdshv, hle, decide_true, if_true, hrem,
      Nat.not_lt.mpr hi, if_false, Option.bind_eq_bind, Option.bind_some]

/-- The start of the loop: the clz-derived `i` succeeds, aligns the divisor above
    the dividend, and every shift below it is exact. -/
theorem camDivStart_eq {n : Word × Word} {d : Word} (hn : n.1 ≠ 0#256) (hd : d ≠ 0#256) :
    ∃ nLz dLz i, camClz n.1 = some nLz ∧ camClz d = some dLz ∧ camDivStart nLz dLz = some i ∧
      nLz.toNat ≤ dLz.toNat + 256 ∧ wideToNat n < d.toNat * 2 ^ i.toNat ∧
      ∀ j < i.toNat, j < 512 ∧ d.toNat * 2 ^ j < 2 ^ 256 * 2 ^ 256 := by
  obtain ⟨nLz, hnLz, hnv⟩ := camClz_eq n.1
  obtain ⟨dLz, hdLz, hdv⟩ := camClz_eq d
  have hnLt := leadingZeros_lt hn
  have hdLt := leadingZeros_lt hd
  have hnUp := toNat_lt_two_pow_sub_leadingZeros n.1
  have hdUp := toNat_lt_two_pow_sub_leadingZeros d
  have hdLow := two_pow_le_toNat hd
  rw [← hnv] at hnUp hnLt
  rw [← hdv] at hdUp hdLow hdLt
  have h256 : (256#256).toNat = 256 := by simp
  have hone : (1#256).toNat = 1 := by simp
  obtain ⟨i1, hi1, hi1v⟩ := cadd_of_lt (x := 256#256) (y := dLz) (by omega)
  obtain ⟨i2, hi2, hi2v⟩ := csub_of_le (x := i1) (y := nLz) (by omega)
  obtain ⟨i, hi, hiv⟩ := cadd_of_lt (x := i2) (y := 1#256) (by omega)
  have hival : i.toNat = 256 + dLz.toNat - nLz.toNat + 1 := by omega
  have hstart : camDivStart nLz dLz = some i := by
    simp only [camDivStart, hi1, hi2, hi, Option.bind_eq_bind, Option.bind_some]
  refine ⟨nLz, dLz, i, hnLz, hdLz, hstart, by omega, ?_, ?_⟩
  · have hnAll : wideToNat n < 2 ^ (512 - nLz.toNat) := by
      have hlo := n.2.isLt
      have hexp : 512 - nLz.toNat = 256 - nLz.toNat + 256 := by omega
      rw [hexp, Nat.pow_add, wideToNat]
      calc n.1.toNat * 2 ^ 256 + n.2.toNat < (n.1.toNat + 1) * 2 ^ 256 := by omega
        _ ≤ 2 ^ (256 - nLz.toNat) * 2 ^ 256 := Nat.mul_le_mul_right _ hnUp
    have h := lt_mul_two_pow hnAll hdLow
    have hexp : 512 - nLz.toNat - (256 - dLz.toNat - 1) = i.toNat := by omega
    rwa [hexp] at h
  · intro j hj
    exact ⟨by omega, mul_two_pow_lt_mul hdUp (by omega)⟩

/-- **`_cam_u512_div_u256` is exact**: the quotient when it fits, a revert otherwise. -/
theorem camU512DivU256_eq {n : Word × Word} {d : Word} (hd : d ≠ 0#256) :
    camU512DivU256 n.1 n.2 d = exact 256 (wideToNat n / d.toNat) := by
  have hpos := toNat_pos hd
  unfold camU512DivU256
  by_cases hn : n.1 = 0#256
  · have hval : wideToNat n = n.2.toNat := by
      rw [wideToNat, hn]
      simp
    rw [if_pos hn, cdiv_eq hd, hval]
  obtain ⟨nLz, dLz, i, hnLz, hdLz, hstart, hle, hbound, hinv⟩ := camDivStart_eq hn hd
  have h256 : (256#256).toNat = 256 := by simp
  have hdLz' := leadingZeros_lt hd
  obtain ⟨nd, hnd, hndv⟩ := camClz_eq d
  have hmostFit : dLz.toNat + (256#256).toNat < 2 ^ 256 := by
    rw [hdLz, Option.some.injEq] at hnd
    rw [h256, hnd, hndv]
    omega
  obtain ⟨most, hmost, hmostv⟩ := cadd_of_lt hmostFit
  have hguard : ¬ most < nLz := by
    rw [BitVec.lt_def]
    omega
  rw [if_neg hn]
  simp only [hnLz, hdLz, hmost, hguard, if_false, hstart, Option.bind_eq_bind, Option.bind_some]
  have hzero : (0#256).toNat = 0 := by simp
  by_cases hfit : wideToNat n / d.toNat < 2 ^ 256
  · obtain ⟨s, hs, hq, -⟩ := (camU512DivMachine d).run_eq_some hpos i.toNat (n, 0#256) hinv hbound
      (by show (0#256).toNat + _ < _; rw [hzero, Nat.zero_add]; exact hfit)
    have hval : s.2.toNat = wideToNat n / d.toNat := by
      refine hq.trans ?_
      show (0#256).toNat + _ = _
      rw [hzero, Nat.zero_add]
      rfl
    rw [show camU512DivStep d = (camU512DivMachine d).step from rfl, hs, Option.bind_some,
      Option.pure_def, exact_eq_some.mpr hval]
  · rw [show camU512DivStep d = (camU512DivMachine d).step from rfl,
      (camU512DivMachine d).run_eq_none i.toNat (n, 0#256) hinv hbound (Nat.not_lt.mp hfit),
      Option.bind_none, exact_of_le (Nat.not_lt.mp hfit)]

/-! ### `_cam_muldiv` and `_cam_muldivmod` -/

/-- `_cam_muldiv`. -/
def camMuldiv (a b z : Word) : Option Word :=
  if a = 0#256 ∨ b = 0#256 then some 0#256
  else do
    let (nHi, nLo) ← camU512Mul a b
    camU512DivU256 nHi nLo z

/-- The Solidity builtin `mulmod`, which reverts on a zero modulus. -/
def mulmod (x y z : Word) : Option Word :=
  if z = 0#256 then none else some (BitVec.ofNat 256 (x.toNat * y.toNat % z.toNat))

/-- `_cam_muldivmod`. -/
def camMuldivmod (x y z : Word) : Option (Word × Word) := do
  let q ← camMuldiv x y z
  let r ← mulmod x y z
  return (q, r)

theorem camMuldiv_eq {x y z : Word} (hz : z ≠ 0#256) :
    camMuldiv x y z = exact 256 (x.toNat * y.toNat / z.toNat) := by
  unfold camMuldiv
  by_cases h0 : x = 0#256 ∨ y = 0#256
  · have hprod : x.toNat * y.toNat = 0 := by
      rcases h0 with h | h
      · rw [h]; simp
      · rw [h]; simp
    rw [if_pos h0, hprod, Nat.zero_div, eq_comm, exact_eq_some]
    simp
  · obtain ⟨n, hn, hnv⟩ := camU512Mul_eq x y
    rw [if_neg h0, hn, Option.bind_eq_bind, Option.bind_some, ← hnv]
    exact camU512DivU256_eq hz

theorem mulmod_eq {x y z : Word} (hz : z ≠ 0#256) :
    mulmod x y z = exact 256 (x.toNat * y.toNat % z.toNat) := by
  have hlt : x.toNat * y.toNat % z.toNat < 2 ^ 256 :=
    (Nat.mod_lt _ (toNat_pos hz)).trans z.isLt
  rw [mulmod, if_neg hz, exact_of_lt hlt]

theorem camMuldivmod_eq {x y z : Word} (hz : z ≠ 0#256) :
    camMuldivmod x y z = (exact 256 (x.toNat * y.toNat / z.toNat)).bind fun q =>
      (exact 256 (x.toNat * y.toNat % z.toNat)).map fun r => (q, r) := by
  rw [camMuldivmod, camMuldiv_eq hz, mulmod_eq hz]
  simp only [Option.bind_eq_bind, Option.pure_def, Option.map_eq_bind, Function.comp_def]

end CambrianLang.Solidity
