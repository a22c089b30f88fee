/-
  **Signed and unsigned machine integers.**

  An integer type is a sign and a width, a value is the word, and what the word means is
  an integer.  Arithmetic is done on that integer and fails where the type has no word for
  the result; a cast wraps instead.
-/
import Mathlib.Tactic.Linarith
import Mathlib.Tactic.Ring

namespace CambrianLang.MachineInt

structure IntType where
  signed : Bool
  width : Nat
deriving DecidableEq

namespace IntType

variable (t : IntType)

def lo : Int := if t.signed then -2 ^ (t.width - 1) else 0

def hi : Int := if t.signed then 2 ^ (t.width - 1) - 1 else 2 ^ t.width - 1

/-- The type has a word for the number. -/
def Fits (n : Int) : Prop := t.lo ≤ n ∧ n ≤ t.hi

instance (n : Int) : Decidable (t.Fits n) := inferInstanceAs (Decidable (_ ∧ _))

/-- The number that a word stands for. -/
def toInt (x : BitVec t.width) : Int := if t.signed then x.toInt else x.toNat

/-- `as`: the word of a number modulo the width. -/
def cast (n : Int) : BitVec t.width := BitVec.ofInt t.width n

/-- The word of a number, if there is one. -/
def checked (n : Int) : Option (BitVec t.width) := if t.Fits n then some (t.cast n) else none

def add (x y : BitVec t.width) : Option (BitVec t.width) := t.checked (t.toInt x + t.toInt y)

def sub (x y : BitVec t.width) : Option (BitVec t.width) := t.checked (t.toInt x - t.toInt y)

def mul (x y : BitVec t.width) : Option (BitVec t.width) := t.checked (t.toInt x * t.toInt y)

/-- Division towards zero. -/
def div (x y : BitVec t.width) : Option (BitVec t.width) :=
  if t.toInt y = 0 then none else t.checked ((t.toInt x).tdiv (t.toInt y))

/-- The remainder; it fails where the quotient does. -/
def rem (x y : BitVec t.width) : Option (BitVec t.width) :=
  if t.toInt y = 0 then none
  else if t.Fits ((t.toInt x).tdiv (t.toInt y)) then some (t.cast ((t.toInt x).tmod (t.toInt y)))
  else none

variable {t}

/-! ### Words and numbers -/

theorem two_pow_pred (h : 0 < t.width) : (2 : Int) ^ t.width = 2 * 2 ^ (t.width - 1) := by
  obtain ⟨w, hw⟩ := Nat.exists_eq_succ_of_ne_zero (Nat.pos_iff_ne_zero.mp h)
  rw [hw, Nat.succ_sub_one, pow_succ, mul_comm]

theorem fits_toInt (h : 0 < t.width) (x : BitVec t.width) : t.Fits (t.toInt x) := by
  have hlt := x.isLt
  have hpow := two_pow_pred h
  have hnat : ((2 ^ t.width : Nat) : Int) = 2 ^ t.width := by push_cast; rfl
  have hpred : ((2 ^ (t.width - 1) : Nat) : Int) = 2 ^ (t.width - 1) := by push_cast; rfl
  unfold Fits toInt lo hi
  cases t.signed with
  | false =>
    simp only [Bool.false_eq_true, if_false]
    omega
  | true =>
    simp only [if_true]
    rw [BitVec.toInt_eq_toNat_cond]
    split <;> omega

theorem toInt_cast (h : 0 < t.width) {n : Int} (hn : t.Fits n) : t.toInt (t.cast n) = n := by
  have hpow := two_pow_pred h
  have hnat : ((2 ^ t.width : Nat) : Int) = 2 ^ t.width := by push_cast; rfl
  unfold Fits lo hi at hn
  unfold toInt cast
  cases hs : t.signed with
  | false =>
    rw [hs] at hn
    simp only [Bool.false_eq_true, if_false] at hn ⊢
    rw [BitVec.toNat_ofInt, hnat, Int.emod_eq_of_lt hn.1 (by omega), Int.toNat_of_nonneg hn.1]
  | true =>
    rw [hs] at hn
    simp only [if_true] at hn ⊢
    exact BitVec.toInt_ofInt_eq_self h hn.1 (by omega)

theorem exists_toInt_iff (h : 0 < t.width) {n : Int} : (∃ x, t.toInt x = n) ↔ t.Fits n := by
  constructor
  · rintro ⟨x, rfl⟩
    exact fits_toInt h x
  · exact fun hn => ⟨_, toInt_cast h hn⟩

theorem checked_of_fits {n : Int} (hn : t.Fits n) : t.checked n = some (t.cast n) := if_pos hn

theorem checked_of_not_fits {n : Int} (hn : ¬ t.Fits n) : t.checked n = none := if_neg hn

/-! ### Wrapping -/

variable (t) in
/-- The number of the word of a number. -/
def wrap (n : Int) : Int := t.toInt (t.cast n)

theorem fits_wrap (h : 0 < t.width) (n : Int) : t.Fits (t.wrap n) := fits_toInt h _

/-- Nothing is lost exactly when the type has a word for the number. -/
theorem wrap_eq_iff (h : 0 < t.width) {n : Int} : t.wrap n = n ↔ t.Fits n := by
  constructor
  · intro heq
    exact heq ▸ fits_wrap h n
  · exact toInt_cast h

theorem wrap_emod (n : Int) : t.wrap n % 2 ^ t.width = n % 2 ^ t.width := by
  have hnat : ((2 ^ t.width : Nat) : Int) = 2 ^ t.width := by push_cast; rfl
  have hpos : (0 : Int) < 2 ^ t.width := by positivity
  unfold wrap toInt cast
  cases t.signed with
  | false =>
    rw [if_neg Bool.false_ne_true, BitVec.toNat_ofInt, hnat,
      Int.toNat_of_nonneg (Int.emod_nonneg _ hpos.ne'), Int.emod_emod]
  | true => rw [if_pos rfl, BitVec.toInt_ofInt, ← hnat, Int.bmod_emod]

/-- Only the low bits count. -/
theorem wrap_congr {m n : Int} (h : m % 2 ^ t.width = n % 2 ^ t.width) : t.wrap m = t.wrap n := by
  have hnat : ((2 ^ t.width : Nat) : Int) = 2 ^ t.width := by push_cast; rfl
  have hcast : t.cast m = t.cast n := by
    apply BitVec.eq_of_toNat_eq
    rw [cast, cast, BitVec.toNat_ofInt, BitVec.toNat_ofInt, hnat, h]
  rw [wrap, wrap, hcast]

/-- A detour through a wider word changes nothing. -/
theorem wrap_wrap {u : IntType} (h : t.width ≤ u.width) (n : Int) :
    t.wrap (u.wrap n) = t.wrap n := by
  apply wrap_congr
  have hdvd : (2 : Int) ^ t.width ∣ 2 ^ u.width := pow_dvd_pow 2 h
  rw [← Int.emod_emod_of_dvd _ hdvd, wrap_emod, Int.emod_emod_of_dvd _ hdvd]

/-- The wider word is already the narrow one exactly when the narrow type has it. -/
theorem wrap_eq_wrap_iff {u : IntType} (hpos : 0 < t.width) (h : t.width ≤ u.width) (n : Int) :
    u.wrap n = t.wrap n ↔ t.Fits (u.wrap n) := by
  rw [← wrap_eq_iff hpos, wrap_wrap h, eq_comm]

/-! ### Signs -/

/-- `-n` or `n`. -/
def withSign (negative : Bool) (n : Nat) : Int := if negative then -n else n

theorem withSign_natAbs (n : Int) : withSign (decide (n < 0)) n.natAbs = n := by
  unfold withSign
  by_cases h : n < 0
  · rw [if_pos (decide_eq_true h)]
    omega
  · rw [if_neg (by simpa using h)]
    omega

theorem withSign_mul (a b : Bool) (m n : Nat) :
    withSign a m * withSign b n = withSign (a ^^ b) (m * n) := by
  cases a <;> cases b <;> simp [withSign]

theorem withSign_tdiv (a b : Bool) (m n : Nat) :
    (withSign a m).tdiv (withSign b n) = withSign (a ^^ b) (m / n) := by
  cases a <;> cases b <;> simp [withSign]

theorem withSign_tmod (a b : Bool) (m n : Nat) :
    (withSign a m).tmod (withSign b n) = withSign a (m % n) := by
  cases a <;> cases b <;> simp [withSign, Int.tmod_eq_emod_of_nonneg]

/-- The truncated quotient from the magnitudes. -/
theorem mul_tdiv_eq (x y z : Int) :
    (x * y).tdiv z = withSign (decide (x < 0) ^^ decide (y < 0) ^^ decide (z < 0))
      (x.natAbs * y.natAbs / z.natAbs) := by
  conv_lhs => rw [← withSign_natAbs x, ← withSign_natAbs y, ← withSign_natAbs z]
  rw [withSign_mul, withSign_tdiv]

theorem mul_tmod_eq (x y z : Int) :
    (x * y).tmod z = withSign (decide (x < 0) ^^ decide (y < 0))
      (x.natAbs * y.natAbs % z.natAbs) := by
  conv_lhs => rw [← withSign_natAbs x, ← withSign_natAbs y, ← withSign_natAbs z]
  rw [withSign_mul, withSign_tmod]

/-! ### Products in twice the width -/

/-- The type of the same sign and twice the width. -/
def wide (t : IntType) : IntType := ⟨t.signed, 2 * t.width⟩

/-- The largest magnitude of the type. -/
def magnitude (t : IntType) : Nat := if t.signed then 2 ^ (t.width - 1) else 2 ^ t.width - 1

theorem Fits.natAbs_le {n : Int} (hn : t.Fits n) :
    n.natAbs ≤ t.magnitude ∧ (t.signed = false → 0 ≤ n) := by
  have hone : 1 ≤ 2 ^ t.width := Nat.one_le_two_pow
  have hnat : ((2 ^ t.width : Nat) : Int) = 2 ^ t.width := by push_cast; rfl
  have hpred : ((2 ^ (t.width - 1) : Nat) : Int) = 2 ^ (t.width - 1) := by push_cast; rfl
  unfold Fits lo hi at hn
  unfold magnitude
  cases hs : t.signed with
  | false =>
    rw [hs] at hn
    simp only [Bool.false_eq_true, if_false] at hn ⊢
    omega
  | true =>
    rw [hs] at hn
    simp only [if_true] at hn ⊢
    exact ⟨by omega, nofun⟩

theorem fits_wide (h : 0 < t.width) {n : Int} (hle : n.natAbs ≤ t.magnitude * t.magnitude)
    (hpos : t.signed = false → 0 ≤ n) : t.wide.Fits n := by
  unfold magnitude at hle
  unfold Fits lo hi wide
  dsimp only
  cases hs : t.signed with
  | false =>
    rw [hs] at hle
    simp only [Bool.false_eq_true, if_false] at hle ⊢
    have hone : 1 ≤ 2 ^ t.width := Nat.one_le_two_pow
    have hmul : (2 ^ t.width - 1) * (2 ^ t.width - 1) ≤ (2 ^ t.width - 1) * 2 ^ t.width :=
      Nat.mul_le_mul_left _ (Nat.sub_le ..)
    have hsub : (2 ^ t.width - 1) * 2 ^ t.width = 2 ^ (2 * t.width) - 2 ^ t.width := by
      rw [Nat.sub_mul, Nat.one_mul, two_mul, Nat.pow_add]
    have hcast : ((2 ^ (2 * t.width) : Nat) : Int) = 2 ^ (2 * t.width) := by push_cast; rfl
    have hpow : 2 ^ t.width ≤ 2 ^ (2 * t.width) := Nat.pow_le_pow_right (by omega) (by omega)
    have hn := hpos hs
    omega
  | true =>
    rw [hs] at hle
    simp only [if_true] at hle ⊢
    have hexp : 2 ^ (t.width - 1) * 2 ^ (t.width - 1) = 2 ^ (2 * t.width - 2) := by
      rw [← Nat.pow_add]
      congr 1
      omega
    have hdouble : 2 ^ (2 * t.width - 1) = 2 * 2 ^ (2 * t.width - 2) := by
      rw [← Nat.pow_succ']
      congr 1
      omega
    have hone : 1 ≤ 2 ^ (2 * t.width - 2) := Nat.one_le_two_pow
    have hcast : ((2 ^ (2 * t.width - 1) : Nat) : Int) = 2 ^ (2 * t.width - 1) := by push_cast; rfl
    omega

/-- A product fits in twice the width, -/
theorem fits_wide_mul (h : 0 < t.width) {x y : Int} (hx : t.Fits x) (hy : t.Fits y) :
    t.wide.Fits (x * y) := by
  apply fits_wide h
  · rw [Int.natAbs_mul]
    exact Nat.mul_le_mul hx.natAbs_le.1 hy.natAbs_le.1
  · exact fun hs => Int.mul_nonneg (hx.natAbs_le.2 hs) (hy.natAbs_le.2 hs)

/-- and so does its quotient by anything. -/
theorem fits_wide_tdiv (h : 0 < t.width) {x y z : Int} (hx : t.Fits x) (hy : t.Fits y)
    (hz : t.Fits z) : t.wide.Fits ((x * y).tdiv z) := by
  apply fits_wide h
  · refine (Int.natAbs_tdiv_le_natAbs _ _).trans ?_
    rw [Int.natAbs_mul]
    exact Nat.mul_le_mul hx.natAbs_le.1 hy.natAbs_le.1
  · intro hs
    exact Int.tdiv_nonneg (Int.mul_nonneg (hx.natAbs_le.2 hs) (hy.natAbs_le.2 hs))
      (hz.natAbs_le.2 hs)

/-- A value fits in twice the width. -/
theorem Fits.wide (h : 0 < t.width) {n : Int} (hn : t.Fits n) : t.wide.Fits n := by
  apply fits_wide h _ hn.natAbs_le.2
  have hle := hn.natAbs_le.1
  rcases Nat.eq_zero_or_pos t.magnitude with hzero | hpos
  · omega
  · exact hle.trans (Nat.le_mul_of_pos_left _ hpos)

/-- A remainder is no larger than the divisor. -/
theorem fits_tmod {m z : Int} (hm : t.signed = false → 0 ≤ m) (hz : t.Fits z)
    (hne : z ≠ 0) : t.Fits (m.tmod z) := by
  have hlt : (m.tmod z).natAbs < z.natAbs := by
    rw [Int.natAbs_tmod]
    exact Nat.mod_lt _ (Int.natAbs_pos.mpr hne)
  have hle := hz.natAbs_le.1
  have hnat : ((2 ^ t.width : Nat) : Int) = 2 ^ t.width := by push_cast; rfl
  have hpred : ((2 ^ (t.width - 1) : Nat) : Int) = 2 ^ (t.width - 1) := by push_cast; rfl
  unfold magnitude at hle
  unfold Fits lo hi
  cases hs : t.signed with
  | false =>
    rw [hs] at hle
    simp only [Bool.false_eq_true, if_false] at hle ⊢
    have hpos := Int.tmod_nonneg z (hm hs)
    omega
  | true =>
    rw [hs] at hle
    simp only [if_true] at hle ⊢
    omega

end IntType

end CambrianLang.MachineInt
