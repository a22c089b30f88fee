/-
  **The 512-bit helpers, step by step** (`u512_mul`, `u512_div_by_u256`, `u512_shl_u256`,
  `u512_gte` and `u512_sub` in `cambrian-core/src/lib.rs`).

  The loop of `u512_div_by_u256` starts at a shift of up to 511.  In every iteration that is
  reached, also of a run that ends in the panic, the shifted divisor is exact, the minuend is
  not the smaller number, and the quotient bit fits.
-/
import CambrianLang.Core.DivRem
import CambrianLang.Core.Wide

namespace CambrianLang.Core

open LongArithmetic U256

/-! ### Shifts -/

/-- `u512_shl_u256`, with the checks of its operations. -/
def u512ShlChecked (v : U256) (shift : ℕ) : Option (U256 × U256) :=
  if shift = 0 then some (zero, v)
  else if 512 ≤ shift then some (zero, zero)
  else if 256 ≤ shift then do
    let amount ← csubU32 shift 256
    let hi ← u256ShlChecked v amount
    return (hi, zero)
  else do
    let lo ← u256ShlChecked v shift
    if shift = 0 then return (zero, lo)
    else do
      let amount ← csubU32 256 shift
      let hi ← u256ShrChecked v amount
      return (hi, lo)

/-- No amount is out of range. -/
theorem u512ShlChecked_eq (v : U256) (shift : ℕ) :
    u512ShlChecked v shift = some (u512ShlU256 v shift) := by
  unfold u512ShlChecked u512ShlU256
  by_cases h0 : shift = 0
  · rw [if_pos h0, if_pos h0]
  by_cases h512 : 512 ≤ shift
  · rw [if_neg h0, if_neg h0, if_pos h512, if_pos h512]
  by_cases h256 : 256 ≤ shift
  · simp [h0, h512, h256, csubU32, u256ShlChecked_eq]
  · have hamount : shift ≤ 256 := by omega
    simp [h0, h512, h256, csubU32, hamount, u256ShlChecked_eq, u256ShrChecked_eq]

/-! ### The borrow -/

/-- **`U256::MAX - b + a + 1` does not overflow** where it is evaluated. -/
theorem borrow_exact {a b : U256} (h : a.toNat < b.toNat) :
    ∃ t u v, U256.max.sub b = some t ∧ t.add a = some u ∧ u.add one = some v ∧
      v.toNat = 2 ^ 256 + a.toNat - b.toNat := by
  have hb := b.toNat_lt
  have hmax := toNat_max
  obtain ⟨t, ht, htv⟩ := sub_of_le (a := U256.max) (b := b) (by omega)
  obtain ⟨u, hu, huv⟩ := exists_checked (n := t.toNat + a.toNat) (by omega)
  obtain ⟨v, hv, hvv⟩ := exists_checked (n := u.toNat + one.toNat) (by rw [toNat_one]; omega)
  refine ⟨t, u, v, ht, by rw [add_eq, hu], by rw [add_eq, hv], ?_⟩
  rw [hvv, huv, htv, toNat_one]
  omega

/-! ### The iterations -/

/-- The variables of the loop at the top of iteration `i`. -/
def wideDivAt (n : U256 × U256) (d : U256) (i : ℕ) : Option ((U256 × U256) × U256) :=
  DivMachine.before (u512DivStep d) (i + 1) (u512Shift n d - i) (n, zero)

/-- What iteration `i` computes, exactly. -/
structure WideIteration (d : U256) (i : ℕ) (s : (U256 × U256) × U256) : Prop where
  /-- Nothing of the divisor has been shifted out. -/
  shifted : u512ToNat (u512ShlU256 d i) = d.toNat * 2 ^ i
  minuend : u512Gte s.1 (u512ShlU256 d i) = true → u512ToNat (u512ShlU256 d i) ≤ u512ToNat s.1
  sub : u512Gte s.1 (u512ShlU256 d i) = true →
    ∃ rem, u512Sub s.1 (u512ShlU256 d i) = some rem ∧
      u512ToNat rem = u512ToNat s.1 - u512ToNat (u512ShlU256 d i)
  add : u512Gte s.1 (u512ShlU256 d i) = true → i < 256 →
    ∃ quot, s.2.add (u256Shl one i) = some quot ∧ quot.toNat = s.2.toNat + 2 ^ i

/-- A state at the top of an iteration: the divisor shifts exactly, and what the quotient has
    and lacks fits, or the bit of the iteration is above the register. -/
theorem wideIteration_of {d : U256} {i : ℕ} {s : (U256 × U256) × U256} (hpos : 0 < d.toNat)
    (hshift : d.toNat * 2 ^ i < 2 ^ 256 * 2 ^ 256)
    (hfits : s.2.toNat + u512ToNat s.1 / d.toNat < 2 ^ 256 ∨
      (d.toNat * 2 ^ i ≤ u512ToNat s.1 → 256 ≤ i)) : WideIteration d i s := by
  have hdsh := u512ShlU256_toNat hshift
  have hgte : u512Gte s.1 (u512ShlU256 d i) = true →
      u512ToNat (u512ShlU256 d i) ≤ u512ToNat s.1 := by
    rw [u512Gte_eq]
    exact of_decide_eq_true
  refine ⟨hdsh, hgte, fun h => u512Sub_of_le (hgte h), ?_⟩
  intro h hi
  have hle : d.toNat * 2 ^ i ≤ u512ToNat s.1 := hdsh ▸ hgte h
  have htotal : s.2.toNat + u512ToNat s.1 / d.toNat < 2 ^ 256 := by
    rcases hfits with hfits | hover
    · exact hfits
    · have hbig := hover hle
      omega
  -- the bit is part of the quotient of what is left
  have hbit : 2 ^ i ≤ u512ToNat s.1 / d.toNat :=
    (Nat.le_div_iff_mul_le hpos).mpr (by rwa [Nat.mul_comm])
  obtain ⟨quot, hquot, hval⟩ := exists_checked (n := s.2.toNat + 2 ^ i) (by omega)
  refine ⟨quot, ?_, hval⟩
  rw [add_eq, u256Shl_one_toNat (Nat.pow_lt_pow_right (by omega) hi), hquot]

/-- **Every iteration that is reached is exact**, whether or not the quotient fits. -/
theorem wideDivAt_exact {n : U256 × U256} {d : U256} (hd : d.toNat ≠ 0) (hn : n.1.toNat ≠ 0)
    {i : ℕ} (hi : i ≤ u512Shift n d) {s : (U256 × U256) × U256} (hs : wideDivAt n d i = some s) :
    WideIteration d i s := by
  have hpos : 0 < d.toNat := Nat.pos_of_ne_zero hd
  obtain ⟨-, hshift, hbound⟩ := u512_aligned hd hn
  have hsplit : u512Shift n d + 1 = i + 1 + (u512Shift n d - i) := by omega
  have hhere : d.toNat * 2 ^ i < 2 ^ 256 * 2 ^ 256 := hshift i (by omega)
  rw [hsplit] at hshift hbound
  by_cases hfit : u512ToNat n / d.toNat < 2 ^ 256
  · have hstart : zero.toNat + u512ToNat n / d.toNat < 2 ^ 256 := by
      rwa [toNat_zero, Nat.zero_add]
    obtain ⟨t, ht, -, -, htotal, -⟩ := (u512DivMachine d).before_eq_some hpos (i + 1)
      (u512Shift n d - i) (n, zero) hshift hbound hstart
    cases hs.symm.trans ht
    have hfits : s.2.toNat + u512ToNat s.1 / d.toNat = zero.toNat + u512ToNat n / d.toNat := htotal
    refine wideIteration_of hpos hhere (.inl ?_)
    rw [hfits]
    exact hstart
  · obtain ⟨-, hlt, hrem, -⟩ := (u512DivMachine d).before_over (i + 1) (u512Shift n d - i)
      (n, zero) hshift hbound (Nat.not_lt.mp hfit) s hs
    refine wideIteration_of hpos hhere (.inr fun _ => ?_)
    have hquot : u512ToNat n / d.toNat < 2 ^ (i + 1) := by
      have hsame : u512ToNat s.1 = u512ToNat n := hrem
      rw [← hsame]
      exact Nat.div_lt_of_lt_mul hlt
    have hexp := (Nat.pow_lt_pow_iff_right (a := 2) (by omega)).mp
      ((Nat.not_lt.mp hfit).trans_lt hquot)
    omega

/-! ### `muldiv` and `muldivmod` -/

/-- **The wide operations are exact.**  The product is the exact one; quotient and remainder are
    those of the integers, and a panic means that the quotient does not fit; the shifts, the
    subtractions and the borrow of the long division neither lose a bit nor trap. -/
theorem wide_exact (x y z : U256) (hz : z.toNat ≠ 0) :
    ∃ n, u512Mul x y = some n ∧ u512ToNat n = x.toNat * y.toNat ∧
      (x.toNat * y.toNat / z.toNat < 2 ^ 256 →
        ∃ q r, camMuldiv x y z = some q ∧ q.toNat = x.toNat * y.toNat / z.toNat ∧
          camMuldivmod x y z = some (q, r) ∧
          x.toNat * y.toNat = q.toNat * z.toNat + r.toNat ∧ r.toNat < z.toNat) ∧
      (2 ^ 256 ≤ x.toNat * y.toNat / z.toNat →
        camMuldiv x y z = none ∧ camMuldivmod x y z = none) ∧
      (n.1.toNat ≠ 0 → n.1.leadingZeros ≤ z.leadingZeros + 256 ∧
        u512ToNat (u512ShlU256 z (u512Shift n z)) = z.toNat * 2 ^ u512Shift n z ∧
        ∀ i ≤ u512Shift n z, u512ShlChecked z i = some (u512ShlU256 z i) ∧
          ∀ s, wideDivAt n z i = some s → WideIteration z i s) ∧
      (∀ q qz, u512DivByU256 n z = some q → u512Mul q z = some qz →
        u512ToNat qz ≤ u512ToNat n) ∧
      ∀ a b : U256, a.toNat < b.toNat → ∃ t u v, U256.max.sub b = some t ∧ t.add a = some u ∧
        u.add one = some v ∧ v.toNat = 2 ^ 256 + a.toNat - b.toNat := by
  have hpos : 0 < z.toNat := Nat.pos_of_ne_zero hz
  obtain ⟨n, hn, hnv⟩ := u512Mul_eq x y
  refine ⟨n, hn, hnv, ?_, ?_, ?_, ?_, fun a b => borrow_exact⟩
  · intro hfit
    obtain ⟨q, hq, hqv⟩ := exists_checked hfit
    obtain ⟨r, hr, hrv⟩ := exists_checked (n := x.toNat * y.toNat % z.toNat)
      ((Nat.mod_lt _ hpos).trans z.toNat_lt)
    refine ⟨q, r, by rw [camMuldiv_eq hz, hq], hqv, ?_, ?_, ?_⟩
    · rw [camMuldivmod_eq hz, hq, Option.bind_some, hr, Option.map_some]
    · rw [hqv, hrv, Nat.div_add_mod']
    · rw [hrv]
      exact Nat.mod_lt _ hpos
  · intro hover
    rw [camMuldiv_eq hz, camMuldivmod_eq hz, checked_of_le hover]
    exact ⟨rfl, rfl⟩
  · intro hhigh
    obtain ⟨hlz, hshift, -⟩ := u512_aligned hz hhigh
    refine ⟨hlz, u512ShlU256_toNat (hshift _ (Nat.lt_succ_self _)), ?_⟩
    exact fun i hi => ⟨u512ShlChecked_eq z i, fun s hs => wideDivAt_exact hz hhigh hi hs⟩
  · intro q qz hq hqz
    obtain ⟨qz', hqz', hqzv⟩ := u512Mul_eq q z
    cases hqz.symm.trans hqz'
    rw [u512DivByU256_eq hz, checked_eq_some] at hq
    rw [hqzv, hq]
    exact Nat.div_mul_le_self _ _

/-- (2²⁵⁶ - 1)² / (2²⁵⁶ - 1), whose division starts at a shift of 256. -/
theorem wide_exact_max :
    ∃ q r, camMuldivmod U256.max U256.max U256.max = some (q, r) ∧
      U256.max.toNat * U256.max.toNat = q.toNat * U256.max.toNat + r.toNat ∧
      r.toNat < U256.max.toNat := by
  obtain ⟨-, -, -, hfits, -⟩ := wide_exact U256.max U256.max U256.max (by decide)
  obtain ⟨q, r, -, -, hdiv, hsplit, hlt⟩ := hfits (by decide)
  exact ⟨q, r, hdiv, hsplit, hlt⟩

end CambrianLang.Core
