/-
  **Long multiplication, restoring division and square-and-multiply on the
  natural numbers.**

  The algorithms a multi-word arithmetic library is made of, stated once on
  `Nat` so that every machine version is a refinement of them:

    * `limb_columns`: the columns of a schoolbook product with their carries;
    * `DivMachine`: for `i` from `k - 1` down to `0`, subtract `d · 2^i` from the
      remainder when it fits and add `2^i` to the quotient, rejecting quotient
      bits at or above `lim`.  A machine says what one iteration does to its
      state; `run_eq_some` and `run_eq_none` say what the loop computes;
    * `pow_round`, `size_half`: one round of binary exponentiation.
-/
import Mathlib.Data.Nat.Size
import Mathlib.Tactic.Positivity
import Mathlib.Tactic.Ring
import Mathlib.Tactic.Linarith

namespace CambrianLang.LongArithmetic

/-! ### Limb products -/

/-- A product of two digits in base `n` leaves room for two more digits in a
    double-length register. -/
theorem mul_le_of_lt {x y n : Nat} (hx : x < n) (hy : y < n) :
    x * y ≤ (n - 1) * (n - 1) :=
  Nat.mul_le_mul (by omega) (by omega)

/-- The product of two-limb numbers, limb by limb. -/
theorem mul_limbs (x1 x0 y1 y0 n : Nat) :
    (x1 * n + x0) * (y1 * n + y0) =
      x1 * y1 * (n * n) + (x0 * y1 + x1 * y0) * n + x0 * y0 := by
  ring

/-- A column of four limbs summed one by one, with the carry of each addition. -/
theorem column_carries {n a b c d t1 t0 u1 u0 v1 v0 : Nat} (ht : t1 * n + t0 = a + b)
    (hu : u1 * n + u0 = t0 + c) (hv : v1 * n + v0 = u0 + d) :
    a + b + c + d = v0 + (t1 + u1 + v1) * n := by
  rw [← ht, Nat.add_assoc (t1 * n) t0 c, ← hu, Nat.add_assoc (t1 * n) _ d,
    Nat.add_assoc (u1 * n) u0 d, ← hv]
  ring

/-- The columns of the schoolbook product, carries included, add up to the product. -/
theorem limb_columns {n ll lh hl hh llLo llHi lhLo lhHi hlLo hlHi hhLo hhHi p1 c1 p2 c2 : Nat}
    (hll : llHi * n + llLo = ll) (hlh : lhHi * n + lhLo = lh) (hhl : hlHi * n + hlLo = hl)
    (hhh : hhHi * n + hhLo = hh) (h1 : llHi + lhLo + hlLo = p1 + c1 * n)
    (h2 : lhHi + hlHi + hhLo + c1 = p2 + c2 * n) :
    ((hhHi + c2) * n + p2) * (n * n) + (p1 * n + llLo) =
      hh * (n * n) + (lh + hl) * n + ll := by
  subst hll hlh hhl hhh
  calc ((hhHi + c2) * n + p2) * (n * n) + (p1 * n + llLo)
      = hhHi * n * (n * n) + (p2 + c2 * n) * (n * n) + p1 * n + llLo := by ring
    _ = hhHi * n * (n * n) + (lhHi + hlHi + hhLo) * (n * n) + (p1 + c1 * n) * n + llLo := by
        rw [← h2]; ring
    _ = (hhHi * n + hhLo) * (n * n) + (lhHi * n + lhLo + (hlHi * n + hlLo)) * n +
          (llHi * n + llLo) := by rw [← h1]; ring

/-- The double-length product from its four limb products: the middle column and
    the low column each carry once. -/
theorem limb_carries {n p00 p01 p10 p c0 c1 midHi midLo lo : Nat}
    (hmid : p01 + p10 = c1 * (n * n) + (midHi * n + midLo))
    (hlo : p00 + midLo * n = c0 * (n * n) + lo) :
    p * (n * n) + (p01 + p10) * n + p00 = (p + midHi + c1 * n + c0) * (n * n) + lo := by
  calc p * (n * n) + (p01 + p10) * n + p00
      = (p + midHi + c1 * n) * (n * n) + (p00 + midLo * n) := by rw [hmid]; ring
    _ = (p + midHi + c1 * n + c0) * (n * n) + lo := by rw [hlo]; ring

/-- The low half of the product needs only the low half of the middle column. -/
theorem low_column (p00 mid p11 n : Nat) :
    (p00 + mid % n * n) % (n * n) = (p11 * (n * n) + mid * n + p00) % (n * n) := by
  rw [← Nat.mul_mod_mul_right, Nat.add_mod_mod, Nat.add_assoc, Nat.mul_add_mod_self_right,
    Nat.add_comm]

/-! ### Remainders bit by bit -/

/-- Reading one more bit of `n` doubles what was read so far. -/
theorem div_two_pow_eq (n s : Nat) : n / 2 ^ s = 2 * (n / 2 ^ (s + 1)) + n / 2 ^ s % 2 := by
  rw [Nat.pow_succ, ← Nat.div_div_eq_div_mul]
  omega

/-- and so it updates the remainder from the remainder alone. -/
theorem div_two_pow_mod (n s c : Nat) :
    n / 2 ^ s % c = (2 * (n / 2 ^ (s + 1) % c) + n / 2 ^ s % 2) % c := by
  conv_lhs => rw [div_two_pow_eq]
  simp [Nat.add_mod, Nat.mul_mod]

/-- The bits of a two-word number: the high word holds those from `w` on, -/
theorem bit_of_hi {hi lo w s : Nat} (hlo : lo < 2 ^ w) (hs : w ≤ s) :
    (hi * 2 ^ w + lo) / 2 ^ s = hi / 2 ^ (s - w) := by
  have hpow : 2 ^ s = 2 ^ w * 2 ^ (s - w) := by rw [← Nat.pow_add, Nat.add_sub_cancel' hs]
  rw [hpow, ← Nat.div_div_eq_div_mul, Nat.mul_comm hi, Nat.mul_add_div (by positivity),
    Nat.div_eq_of_lt hlo, Nat.add_zero]

/-- the low word the others. -/
theorem bit_of_lo {hi lo w s : Nat} (hs : s < w) :
    (hi * 2 ^ w + lo) / 2 ^ s % 2 = lo / 2 ^ s % 2 := by
  have hpow : hi * 2 ^ w = 2 ^ s * (2 * (hi * 2 ^ (w - s - 1))) := by
    have hw : w = s + 1 + (w - s - 1) := by omega
    conv_lhs => rw [hw, Nat.pow_add, Nat.pow_succ]
    ring
  rw [hpow, Nat.mul_add_div (by positivity), Nat.mul_add_mod]

/-! ### Restoring division -/

/-- A subtraction step leaves a remainder below the subtrahend. -/
theorem sub_lt_of_lt_succ {d i rem : Nat} (hlt : rem < d * 2 ^ (i + 1)) (hle : d * 2 ^ i ≤ rem) :
    rem - d * 2 ^ i < d * 2 ^ i := by
  have hpow : d * 2 ^ (i + 1) = d * 2 ^ i + d * 2 ^ i := by ring
  omega

/-- A subtraction step takes exactly `2 ^ i` off the quotient. -/
theorem div_eq_add_of_sub {d i rem : Nat} (hd : 0 < d) (hle : d * 2 ^ i ≤ rem) :
    rem / d = 2 ^ i + (rem - d * 2 ^ i) / d := by
  have hsplit : rem = rem - d * 2 ^ i + d * 2 ^ i := by omega
  conv_lhs => rw [hsplit]
  rw [Nat.add_mul_div_left _ _ hd, Nat.add_comm]

/-- A subtraction step keeps the remainder modulo `d`. -/
theorem mod_eq_of_sub {d i rem : Nat} (hle : d * 2 ^ i ≤ rem) :
    (rem - d * 2 ^ i) % d = rem % d := by
  have hsplit : rem = rem - d * 2 ^ i + d * 2 ^ i := by omega
  conv_rhs => rw [hsplit]
  rw [Nat.add_mul_mod_self_left]

/-- A machine that divides by `d` with a quotient register of `lim` bits: what one
    iteration of its loop does to the remainder and the quotient it holds, as
    long as its own invariant `inv`, indexed by the iterations left, is true. -/
structure DivMachine (S : Type) (d lim : Nat) where
  rem : S → Nat
  quot : S → Nat
  inv : Nat → S → Prop
  step : Nat → S → Option S
  step_sub : ∀ {i s}, inv (i + 1) s → d * 2 ^ i ≤ rem s → i < lim → quot s + 2 ^ i < 2 ^ lim →
    ∃ s', step i s = some s' ∧ inv i s' ∧ rem s' = rem s - d * 2 ^ i ∧ quot s' = quot s + 2 ^ i
  step_skip : ∀ {i s}, inv (i + 1) s → rem s < d * 2 ^ i →
    ∃ s', step i s = some s' ∧ inv i s' ∧ rem s' = rem s ∧ quot s' = quot s
  step_over : ∀ {i s}, inv (i + 1) s → d * 2 ^ i ≤ rem s → lim ≤ i → step i s = none

namespace DivMachine

variable {S : Type} {d lim : Nat}

/-- The loop for `i` from `k - 1` down to `0`. -/
def run (step : Nat → S → Option S) : Nat → S → Option S
  | 0, s => some s
  | i + 1, s => (step i s).bind (run step i)

/-- The first `m` iterations of the loop for `i` from `m + j - 1` down to `0`. -/
def before (step : Nat → S → Option S) (j : Nat) : Nat → S → Option S
  | 0, s => some s
  | m + 1, s => (step (j + m) s).bind (before step j m)

/-- The loop goes on from the state its first iterations reach. -/
theorem run_add (step : Nat → S → Option S) (j m : Nat) (s : S) :
    run step (j + m) s = (before step j m s).bind (run step j) := by
  induction m generalizing s with
  | zero => rfl
  | succ m ih =>
    rw [before, ← Nat.add_assoc, run, Option.bind_assoc]
    exact congrArg ((step (j + m) s).bind ·) (funext ih)

/-- **What holds at the top of an iteration**: the remainder is below the next multiple of `d`,
    and what the quotient lacks is the quotient of the remainder. -/
theorem before_eq_some (M : DivMachine S d lim) (hd : 0 < d) (j : Nat) :
    ∀ m s, M.inv (j + m) s → M.rem s < d * 2 ^ (j + m) → M.quot s + M.rem s / d < 2 ^ lim →
      ∃ s', before M.step j m s = some s' ∧ M.inv j s' ∧ M.rem s' < d * 2 ^ j ∧
        M.quot s' + M.rem s' / d = M.quot s + M.rem s / d ∧ M.rem s' % d = M.rem s % d := by
  intro m
  induction m with
  | zero =>
    intro s hinv hlt _
    exact ⟨s, rfl, hinv, hlt, rfl, rfl⟩
  | succ m ih =>
    intro s hinv hlt hfit
    rw [← Nat.add_assoc] at hinv hlt
    by_cases hle : d * 2 ^ (j + m) ≤ M.rem s
    · have hq := div_eq_add_of_sub hd hle
      rw [hq, ← Nat.add_assoc] at hfit
      have hbit : M.quot s + 2 ^ (j + m) < 2 ^ lim := (Nat.le_add_right _ _).trans_lt hfit
      have hi : j + m < lim :=
        (Nat.pow_lt_pow_iff_right (by omega)).mp ((Nat.le_add_left _ _).trans_lt hbit)
      obtain ⟨t, ht, hinvt, hremt, hquott⟩ := M.step_sub hinv hle hi hbit
      obtain ⟨s', hs', hinvs', hrs', hqs', hms'⟩ := ih t hinvt
        (by rw [hremt]; exact sub_lt_of_lt_succ hlt hle) (by rw [hquott, hremt]; exact hfit)
      refine ⟨s', by rw [before, ht]; exact hs', hinvs', hrs', ?_, ?_⟩
      · rw [hqs', hquott, hremt, hq, Nat.add_assoc]
      · rw [hms', hremt, mod_eq_of_sub hle]
    · obtain ⟨t, ht, hinvt, hremt, hquott⟩ := M.step_skip hinv (Nat.not_le.mp hle)
      obtain ⟨s', hs', hinvs', hrs', hqs', hms'⟩ := ih t hinvt
        (by rw [hremt]; exact Nat.not_le.mp hle) (by rw [hquott, hremt]; exact hfit)
      refine ⟨s', by rw [before, ht]; exact hs', hinvs', hrs', ?_, ?_⟩
      · rw [hqs', hquott, hremt]
      · rw [hms', hremt]

/-- Where the quotient has more than `lim` bits, the iterations before the one that traps leave
    everything as it was. -/
theorem before_over (M : DivMachine S d lim) (j : Nat) :
    ∀ m s, M.inv (j + m) s → M.rem s < d * 2 ^ (j + m) → 2 ^ lim ≤ M.rem s / d →
      ∀ s', before M.step j m s = some s' →
        M.inv j s' ∧ M.rem s' < d * 2 ^ j ∧ M.rem s' = M.rem s ∧ M.quot s' = M.quot s := by
  intro m
  induction m with
  | zero =>
    intro s hinv hlt _ s' hs'
    cases hs'
    exact ⟨hinv, hlt, rfl, rfl⟩
  | succ m ih =>
    intro s hinv hlt hbig s' hs'
    rw [← Nat.add_assoc] at hinv hlt
    by_cases hle : d * 2 ^ (j + m) ≤ M.rem s
    · have hq : M.rem s / d < 2 ^ (j + m + 1) := Nat.div_lt_of_lt_mul hlt
      have hi : lim < j + m + 1 := (Nat.pow_lt_pow_iff_right (by omega)).mp (hbig.trans_lt hq)
      rw [before, M.step_over hinv hle (by omega)] at hs'
      cases hs'
    · obtain ⟨t, ht, hinvt, hremt, hquott⟩ := M.step_skip hinv (Nat.not_le.mp hle)
      rw [before, ht] at hs'
      obtain ⟨hinvs', hlts', hrems', hquots'⟩ := ih t hinvt
        (by rw [hremt]; exact Nat.not_le.mp hle) (by rw [hremt]; exact hbig) s' hs'
      exact ⟨hinvs', hlts', hrems'.trans hremt, hquots'.trans hquott⟩

/-- **The loop divides**: from a remainder below `d · 2^k` it ends with the exact
    quotient added and the exact remainder, when the quotient has at most `lim`
    bits, -/
theorem run_eq_some (M : DivMachine S d lim) (hd : 0 < d) (k : Nat) (s : S) (hinv : M.inv k s)
    (hlt : M.rem s < d * 2 ^ k) (hfit : M.quot s + M.rem s / d < 2 ^ lim) :
    ∃ s', run M.step k s = some s' ∧ M.quot s' = M.quot s + M.rem s / d ∧
      M.rem s' = M.rem s % d := by
  obtain ⟨s', hs', -, hrem, hquot, hmod⟩ := M.before_eq_some hd 0 k s
    (by rw [Nat.zero_add]; exact hinv) (by rw [Nat.zero_add]; exact hlt) hfit
  have hrun : run M.step k s = some s' := by
    have hsplit := run_add M.step 0 k s
    rw [hs', Nat.zero_add] at hsplit
    exact hsplit
  have hsmall : M.rem s' < d := by simpa using hrem
  rw [Nat.div_eq_of_lt hsmall, Nat.add_zero] at hquot
  rw [Nat.mod_eq_of_lt hsmall] at hmod
  exact ⟨s', hrun, hquot, hmod⟩

/-- and it traps when the quotient has more. -/
theorem run_eq_none (M : DivMachine S d lim) :
    ∀ k s, M.inv k s → M.rem s < d * 2 ^ k → 2 ^ lim ≤ M.rem s / d →
      run M.step k s = none := by
  intro k
  induction k with
  | zero =>
    intro s _ hlt hbig
    have hrem : M.rem s < d := by simpa using hlt
    have hpos : 0 < 2 ^ lim := by positivity
    rw [Nat.div_eq_of_lt hrem] at hbig
    omega
  | succ i ih =>
    intro s hinv hlt hbig
    by_cases hle : d * 2 ^ i ≤ M.rem s
    · -- the quotient is below `2 ^ (i + 1)`, so this bit is already too high
      have hq : M.rem s / d < 2 ^ (i + 1) := Nat.div_lt_of_lt_mul hlt
      have hi : lim < i + 1 := (Nat.pow_lt_pow_iff_right (by omega)).mp (hbig.trans_lt hq)
      rw [run, M.step_over hinv hle (by omega)]
      rfl
    · obtain ⟨t, ht, hinvt, hremt, -⟩ := M.step_skip hinv (Nat.not_le.mp hle)
      rw [run, ht]
      exact ih t hinvt (by rw [hremt]; exact Nat.not_le.mp hle) (by rw [hremt]; exact hbig)

end DivMachine

/-! ### Bit lengths of a dividend and its divisor -/

/-- Aligning the leading bits of `d` with those of `n` gives a multiple of `d`
    above half of `n`. -/
theorem lt_mul_two_pow {n d a b : Nat} (hn : n < 2 ^ a) (hd : 2 ^ b ≤ d) :
    n < d * 2 ^ (a - b) := by
  calc n < 2 ^ a := hn
    _ ≤ 2 ^ (b + (a - b)) := Nat.pow_le_pow_right (by omega) (by omega)
    _ = 2 ^ b * 2 ^ (a - b) := Nat.pow_add _ _ _
    _ ≤ d * 2 ^ (a - b) := Nat.mul_le_mul_right _ hd

/-- A shifted divisor stays inside the register it was aligned to. -/
theorem mul_two_pow_lt {d c s t : Nat} (hd : d < 2 ^ c) (hs : c + s ≤ t) : d * 2 ^ s < 2 ^ t := by
  calc d * 2 ^ s < 2 ^ c * 2 ^ s := Nat.mul_lt_mul_of_pos_right hd (by positivity)
    _ = 2 ^ (c + s) := (Nat.pow_add _ _ _).symm
    _ ≤ 2 ^ t := Nat.pow_le_pow_right (by omega) hs

/-- The same bound for a register made of two halves. -/
theorem mul_two_pow_lt_mul {d c s t u : Nat} (hd : d < 2 ^ c) (hs : c + s ≤ t + u) :
    d * 2 ^ s < 2 ^ t * 2 ^ u := by
  rw [← Nat.pow_add]
  exact mul_two_pow_lt hd hs

theorem two_pow_mul_le {s t u : Nat} (h : t + u ≤ s) : 2 ^ t * 2 ^ u ≤ 2 ^ s := by
  rw [← Nat.pow_add]
  exact Nat.pow_le_pow_right (by omega) h

/-- The two halves of a shifted word: the bits that leave a register of `m` bits
    and those that stay. -/
theorem shl_split {v s m : Nat} (hs : s ≤ m) :
    v / 2 ^ (m - s) * 2 ^ m + v * 2 ^ s % 2 ^ m = v * 2 ^ s := by
  have hpow : 2 ^ m = 2 ^ (m - s) * 2 ^ s := by rw [← Nat.pow_add, Nat.sub_add_cancel hs]
  have hdiv : v * 2 ^ s / 2 ^ m = v / 2 ^ (m - s) := by
    rw [hpow, Nat.mul_div_mul_right _ _ (by positivity)]
  rw [← hdiv, Nat.div_add_mod']

/-! ### Square-and-multiply -/

/-- One round of square-and-multiply: the low exponent bit selects a factor `b`,
    the remaining bits act on the square. -/
theorem pow_round (b e : Nat) : b ^ e = b ^ (e % 2) * (b * b) ^ (e / 2) := by
  calc b ^ e = b ^ (e % 2 + 2 * (e / 2)) := by rw [Nat.mod_add_div]
    _ = b ^ (e % 2) * (b ^ 2) ^ (e / 2) := by rw [pow_add, pow_mul]
    _ = b ^ (e % 2) * (b * b) ^ (e / 2) := by rw [sq]

/-- One round of the loop on the exact values: the low exponent bit multiplies
    the accumulator, the rest acts on the square. -/
theorem mul_pow_round (r b e : Nat) :
    r * b ^ e = (if e % 2 = 0 then r else r * b) * (b * b) ^ (e / 2) := by
  rw [pow_round]
  rcases Nat.mod_two_eq_zero_or_one e with h | h
  · rw [if_pos h, h, Nat.pow_zero, Nat.one_mul]
  · rw [if_neg (by omega), h, Nat.pow_one, Nat.mul_assoc]

/-- Splitting off low bits shortens the bit length by their number. -/
theorem size_mul_two_pow_add {a b k : Nat} (ha : a ≠ 0) (hb : b < 2 ^ k) :
    (a * 2 ^ k + b).size = a.size + k := by
  have hpos : 0 < a.size := Nat.size_pos.mpr (Nat.pos_of_ne_zero ha)
  apply Nat.le_antisymm
  · rw [Nat.size_le, Nat.pow_add]
    have hlt : a + 1 ≤ 2 ^ a.size := Nat.lt_size_self a
    calc a * 2 ^ k + b < a * 2 ^ k + 2 ^ k := by omega
      _ = (a + 1) * 2 ^ k := by ring
      _ ≤ 2 ^ a.size * 2 ^ k := Nat.mul_le_mul_right _ hlt
  · have hsplit : a.size + k = (a.size - 1 + k) + 1 := by omega
    rw [hsplit, Nat.succ_le_iff, Nat.lt_size, Nat.pow_add]
    have hle : 2 ^ (a.size - 1) ≤ a := Nat.lt_size.mp (by omega)
    exact (Nat.mul_le_mul_right _ hle).trans (Nat.le_add_right _ _)

theorem size_div_two_pow {a k : Nat} (h : 2 ^ k ≤ a) : a.size = (a / 2 ^ k).size + k := by
  have hpos : 0 < a / 2 ^ k := Nat.div_pos h (by positivity)
  calc a.size = (a / 2 ^ k * 2 ^ k + a % 2 ^ k).size := by rw [Nat.div_add_mod']
    _ = (a / 2 ^ k).size + k :=
        size_mul_two_pow_add (by omega) (Nat.mod_lt _ (by positivity))

theorem size_half {e : Nat} (he : e ≠ 0) : e.size = (e / 2).size + 1 := by
  rcases Nat.eq_zero_or_pos (e / 2) with h0 | hpos
  · have hone : e = 1 := by omega
    subst hone
    simp
  · simpa using size_div_two_pow (a := e) (k := 1) (by omega)

/-- A nonzero exponent makes the power at least the base. -/
theorem self_le_pow {b e : Nat} (he : e ≠ 0) : b ≤ b ^ e := Nat.le_self_pow he b

end CambrianLang.LongArithmetic
