/-
  **`cam_divc` and `cam_divr` at every integer type** (`cambrian-core/src/lib.rs`).

  The two functions are generic over `CamDiv`.  What they need of a type is said once: below
  the maximum its operations are those of the integers.  All of the primitive types and `U256`
  have that, and the rounded quotients are then computed without a step that fails.
-/
import CambrianLang.Core.Math
import CambrianLang.Lib.MachineInt
import Mathlib.Data.Rat.Floor

namespace CambrianLang.Core

open MachineInt U256

/-- `CamDiv` and `PartialOrd`; an operation has no result where the machine panics. -/
structure CamDiv (T : Type) where
  zero : T
  one : T
  two : T
  div : T → T → Option T
  rem : T → T → Option T
  sub : T → T → Option T
  add : T → T → Option T
  eq : T → T → Bool
  ge : T → T → Bool
  gt : T → T → Bool

namespace CamDiv

variable {T : Type} (A : CamDiv T)

/-- `cam_divc`. -/
def divc (x y : T) : Option T :=
  if A.ge x A.zero && A.gt y A.zero then
    if A.eq x A.zero then some A.zero
    else do
      let t ← A.sub x A.one
      let q ← A.div t y
      A.add q A.one
  else none

/-- `cam_divr`. -/
def divr (x y : T) : Option T :=
  if A.ge x A.zero && A.gt y A.zero then do
    let q ← A.div x y
    let r ← A.rem x y
    let half ← A.div y A.two
    let halfCeil ← A.sub y half
    if A.ge r halfCeil then A.add q A.one else return q
  else none

/-- The values of the type are integers up to a maximum, and on those that are not negative
    the operations are exact as long as the result is such a value. -/
structure Exact (val : T → ℤ) (hi : ℤ) : Prop where
  zero : val A.zero = 0
  one : val A.one = 1
  two : val A.two = 2
  le_hi (x : T) : val x ≤ hi
  eq_iff (x y : T) : A.eq x y = true ↔ val x = val y
  ge_iff (x y : T) : A.ge x y = true ↔ val y ≤ val x
  gt_iff (x y : T) : A.gt x y = true ↔ val y < val x
  div {x y : T} : 0 ≤ val x → 0 < val y → ∃ q, A.div x y = some q ∧ val q = val x / val y
  rem {x y : T} : 0 ≤ val x → 0 < val y → ∃ r, A.rem x y = some r ∧ val r = val x % val y
  sub {x y : T} : 0 ≤ val y → val y ≤ val x → ∃ d, A.sub x y = some d ∧ val d = val x - val y
  add {x y : T} : 0 ≤ val x → 0 ≤ val y → val x + val y ≤ hi →
    ∃ s, A.add x y = some s ∧ val s = val x + val y

end CamDiv

/-! ### Rounded quotients of integers -/

/-- One more than the quotient of the predecessor is the ceiling. -/
theorem sub_one_ediv_add_one {x y : ℤ} (hy : 0 < y) : (x - 1) / y + 1 = ⌈(x / y : ℚ)⌉ := by
  have hyq : (0 : ℚ) < y := by exact_mod_cast hy
  have hdiv := Int.mul_ediv_add_emod (x - 1) y
  have hnonneg := Int.emod_nonneg (x - 1) hy.ne'
  have hlt := Int.emod_lt_of_pos (x - 1) hy
  symm
  rw [Int.ceil_eq_iff]
  constructor
  · rw [lt_div_iff₀ hyq]
    have hlow : ((x - 1) / y + 1 - 1) * y < x := by
      have hcomm := mul_comm y ((x - 1) / y)
      rw [add_sub_cancel_right]
      omega
    exact_mod_cast hlow
  · rw [div_le_iff₀ hyq]
    have hhigh : x ≤ ((x - 1) / y + 1) * y := by
      have hcomm : ((x - 1) / y + 1) * y = y * ((x - 1) / y) + y := by ring
      omega
    exact_mod_cast hhigh

/-- The quotient, and one more from the upper half of the remainders on, is the nearest integer. -/
theorem ediv_of_half {x y : ℤ} (hy : 0 < y) :
    (if y - y / 2 ≤ x % y then x / y + 1 else x / y) = round (x / y : ℚ) := by
  have hyq : (0 : ℚ) < y := by exact_mod_cast hy
  have hdiv := Int.mul_ediv_add_emod x y
  have hnonneg := Int.emod_nonneg x hy.ne'
  have hlt := Int.emod_lt_of_pos x hy
  have hround : ∀ n : ℤ, 2 * n * y - y ≤ 2 * x → 2 * x < 2 * n * y + y → n = round (x / y : ℚ) := by
    intro n hlow hhigh
    have hlow' : (2 * n * y - y : ℚ) ≤ 2 * x := by exact_mod_cast hlow
    have hhigh' : (2 * x : ℚ) < 2 * n * y + y := by exact_mod_cast hhigh
    symm
    rw [round_eq_iff, Set.mem_Ico, le_div_iff₀ hyq, div_lt_iff₀ hyq]
    constructor <;> linarith
  have hcomm : y * (x / y) = x / y * y := mul_comm _ _
  by_cases h : y - y / 2 ≤ x % y
  · rw [if_pos h]
    apply hround
    · have hsplit : 2 * (x / y + 1) * y - y = 2 * (x / y * y) + y := by ring
      omega
    · have hsplit : 2 * (x / y + 1) * y + y = 2 * (x / y * y) + 3 * y := by ring
      omega
  · rw [if_neg h]
    apply hround
    · have hsplit : 2 * (x / y) * y - y = 2 * (x / y * y) - y := by ring
      omega
    · have hsplit : 2 * (x / y) * y + y = 2 * (x / y * y) + y := by ring
      omega

namespace CamDiv

section Exact

variable {T : Type} {A : CamDiv T} {val : T → ℤ} {hi : ℤ} {x y : T}

theorem Exact.admits (h : A.Exact val hi) (hx : 0 ≤ val x) (hy : 0 < val y) :
    (A.ge x A.zero && A.gt y A.zero) = true := by
  rw [Bool.and_eq_true, h.ge_iff, h.gt_iff, h.zero]
  exact ⟨hx, hy⟩

/-- **`cam_divc` is the exact ceiling** and no step of it fails. -/
theorem Exact.divc_eq (h : A.Exact val hi) (hx : 0 ≤ val x) (hy : 0 < val y) :
    ∃ q, A.divc x y = some q ∧ val q = ⌈(val x / val y : ℚ)⌉ := by
  rw [divc, if_pos (h.admits hx hy)]
  by_cases hzero : val x = 0
  · rw [if_pos ((h.eq_iff x A.zero).mpr (hzero.trans h.zero.symm))]
    exact ⟨A.zero, rfl, by rw [h.zero, hzero]; simp⟩
  · have hne : ¬ A.eq x A.zero = true := fun heq => hzero (((h.eq_iff x A.zero).mp heq).trans h.zero)
    have hone := h.one
    obtain ⟨t, ht, htv⟩ := @Exact.sub _ _ _ _ h x A.one (by omega) (by omega)
    obtain ⟨q, hq, hqv⟩ := @Exact.div _ _ _ _ h t y (by omega) hy
    rw [htv, hone] at hqv
    have hq0 : 0 ≤ val q := by
      rw [hqv]
      exact Int.ediv_nonneg (by omega) hy.le
    -- the quotient of the predecessor leaves room for one more
    have hroom : val q + val A.one ≤ hi := by
      have hle : (val x - 1) / val y ≤ val x - 1 := Int.ediv_le_self _ (by omega)
      have hhi := h.le_hi x
      omega
    obtain ⟨s, hs, hsv⟩ := @Exact.add _ _ _ _ h q A.one hq0 (by omega) hroom
    refine ⟨s, ?_, ?_⟩
    · rw [if_neg hne, ht, Option.bind_eq_bind, Option.bind_some, hq, Option.bind_some, hs]
    · rw [hsv, hqv, hone, sub_one_ediv_add_one hy]

/-- **`cam_divr` is the nearest integer**, halves up, and no step of it fails. -/
theorem Exact.divr_eq (h : A.Exact val hi) (hx : 0 ≤ val x) (hy : 0 < val y) :
    ∃ q, A.divr x y = some q ∧ val q = round (val x / val y : ℚ) := by
  rw [divr, if_pos (h.admits hx hy), ← ediv_of_half hy]
  have htwo := h.two
  obtain ⟨q, hq, hqv⟩ := h.div hx hy
  obtain ⟨r, hr, hrv⟩ := h.rem hx hy
  obtain ⟨half, hhalf, hhalfv⟩ := @Exact.div _ _ _ _ h y A.two hy.le (by omega)
  rw [htwo] at hhalfv
  obtain ⟨halfCeil, hceil, hceilv⟩ := @Exact.sub _ _ _ _ h y half (by omega) (by omega)
  rw [hhalfv] at hceilv
  simp only [hq, hr, hhalf, hceil, Option.bind_eq_bind, Option.bind_some]
  by_cases hge : val y - val y / 2 ≤ val x % val y
  · have hup : A.ge r halfCeil = true := by
      rw [h.ge_iff, hrv, hceilv]
      exact hge
    have hone := h.one
    have hq0 : 0 ≤ val q := by
      rw [hqv]
      exact Int.ediv_nonneg hx hy.le
    -- a remainder is only there when the quotient is below the dividend
    have hroom : val q + val A.one ≤ hi := by
      have hdiv := Int.mul_ediv_add_emod (val x) (val y)
      have hlt := Int.emod_lt_of_pos (val x) hy
      have hmul : val x / val y ≤ val y * (val x / val y) :=
        le_mul_of_one_le_left (Int.ediv_nonneg hx hy.le) hy
      have hhi := h.le_hi x
      omega
    obtain ⟨s, hs, hsv⟩ := @Exact.add _ _ _ _ h q A.one hq0 (by omega) hroom
    rw [if_pos hup, if_pos hge]
    exact ⟨s, hs, by rw [hsv, hqv, hone]⟩
  · have hdown : ¬ A.ge r halfCeil = true := by
      rw [h.ge_iff, hrv, hceilv]
      exact hge
    rw [if_neg hdown, if_neg hge]
    exact ⟨q, rfl, hqv⟩

end Exact

/-! ### The implementations -/

/-- `impl_cam_div!`. -/
def ofInt (t : IntType) : CamDiv (BitVec t.width) where
  zero := t.cast 0
  one := t.cast 1
  two := t.cast 2
  div := t.div
  rem := t.rem
  sub := t.sub
  add := t.add
  eq x y := decide (t.toInt x = t.toInt y)
  ge x y := decide (t.toInt y ≤ t.toInt x)
  gt x y := decide (t.toInt y < t.toInt x)

/-- `impl CamDiv for U256`. -/
def u256 : CamDiv U256 where
  zero := U256.zero
  one := U256.one
  two := U256.two
  div := U256.div
  rem := U256.rem
  sub := U256.sub
  add := U256.add
  eq x y := x.hi == y.hi && x.lo == y.lo
  ge x y := !x.blt y
  gt x y := y.blt x

theorem exact_ofInt {t : IntType} (hwidth : 0 < t.width) (htwo : 2 ≤ t.hi) :
    (ofInt t).Exact t.toInt t.hi := by
  have hlo : t.lo ≤ 0 := by
    unfold IntType.lo
    split
    · exact neg_nonpos.mpr (by positivity)
    · exact le_rfl
  have hfits : ∀ n : ℤ, 0 ≤ n → n ≤ t.hi → t.Fits n := fun n h0 hn => ⟨hlo.trans h0, hn⟩
  have hcast : ∀ n : ℤ, 0 ≤ n → n ≤ t.hi → t.toInt (t.cast n) = n := fun n h0 hn =>
    IntType.toInt_cast hwidth (hfits n h0 hn)
  have hhi : ∀ x : BitVec t.width, t.toInt x ≤ t.hi := fun x => (IntType.fits_toInt hwidth x).2
  have hchecked : ∀ n : ℤ, 0 ≤ n → n ≤ t.hi → ∃ s, t.checked n = some s ∧ t.toInt s = n :=
    fun n h0 hn => ⟨t.cast n, IntType.checked_of_fits (hfits n h0 hn), hcast n h0 hn⟩
  refine ⟨hcast 0 le_rfl (by omega), hcast 1 (by omega) (by omega), hcast 2 (by omega) htwo, hhi,
    fun x y => decide_eq_true_iff, fun x y => decide_eq_true_iff, fun x y => decide_eq_true_iff,
    ?_, ?_, ?_, ?_⟩
  · intro x y hx hy
    have hle : t.toInt x / t.toInt y ≤ t.toInt x := Int.ediv_le_self _ hx
    obtain ⟨q, hq, hqv⟩ := hchecked (t.toInt x / t.toInt y) (Int.ediv_nonneg hx hy.le)
      (hle.trans (hhi x))
    refine ⟨q, ?_, hqv⟩
    change t.div x y = some q
    rw [IntType.div, if_neg hy.ne', Int.tdiv_eq_ediv_of_nonneg hx, hq]
  · intro x y hx hy
    have hle : t.toInt x / t.toInt y ≤ t.toInt x := Int.ediv_le_self _ hx
    have hquot : t.Fits ((t.toInt x).tdiv (t.toInt y)) := by
      rw [Int.tdiv_eq_ediv_of_nonneg hx]
      exact hfits _ (Int.ediv_nonneg hx hy.le) (hle.trans (hhi x))
    have hmod : (t.toInt x).tmod (t.toInt y) = t.toInt x % t.toInt y := Int.tmod_eq_emod_of_nonneg hx
    refine ⟨t.cast (t.toInt x % t.toInt y), ?_, ?_⟩
    · change t.rem x y = _
      rw [IntType.rem, if_neg hy.ne', if_pos hquot, hmod]
    · have hlt := Int.emod_lt_of_pos (t.toInt x) hy
      exact hcast _ (Int.emod_nonneg _ hy.ne') (hlt.le.trans (hhi y))
  · intro x y hy hle
    have hx := hhi x
    exact hchecked (t.toInt x - t.toInt y) (by omega) (by omega)
  · intro x y hx hy hroom
    exact hchecked (t.toInt x + t.toInt y) (by omega) hroom

theorem exact_u256 : u256.Exact (fun v => (v.toNat : ℤ)) (2 ^ 256 - 1) := by
  refine ⟨rfl, rfl, rfl, ?_, ?_, ?_, ?_, ?_, ?_, ?_, ?_⟩
  · intro x
    have hlt := x.toNat_lt
    omega
  · intro x y
    rw [Nat.cast_inj]
    constructor
    · intro heq
      obtain ⟨hhi, hlo⟩ := Bool.and_eq_true_iff.mp heq
      rw [U256.toNat, U256.toNat, eq_of_beq hhi, eq_of_beq hlo]
    · intro heq
      rw [U256.toNat_injective heq]
      simp [u256]
  · intro x y
    simp [u256, blt_eq]
  · intro x y
    simp [u256, blt_eq]
  · intro x y _ hy
    obtain ⟨q, hq, hqv⟩ := @U256.div_eq x y (by omega)
    exact ⟨q, hq, by rw [hqv, Int.natCast_ediv]⟩
  · intro x y _ hy
    obtain ⟨r, hr, hrv⟩ := @U256.rem_eq x y (by omega)
    exact ⟨r, hr, by rw [hrv, Int.natCast_emod]⟩
  · intro x y _ hle
    obtain ⟨d, hd, hdv⟩ := @sub_of_le x y (by omega)
    exact ⟨d, hd, by omega⟩
  · intro x y _ _ hroom
    obtain ⟨s, hs, hsv⟩ := @exists_checked (x.toNat + y.toNat) (by omega)
    exact ⟨s, (add_eq x y).trans hs, by omega⟩

/-- The primitive types of `impl_cam_div!`, with the word size of a 64-bit machine. -/
inductive Primitive where
  | u8 | u16 | u32 | u64 | u128 | usize | i8 | i16 | i32 | i64 | i128 | isize
deriving DecidableEq

def Primitive.intType : Primitive → IntType
  | .u8 => ⟨false, 8⟩
  | .u16 => ⟨false, 16⟩
  | .u32 => ⟨false, 32⟩
  | .u64 | .usize => ⟨false, 64⟩
  | .u128 => ⟨false, 128⟩
  | .i8 => ⟨true, 8⟩
  | .i16 => ⟨true, 16⟩
  | .i32 => ⟨true, 32⟩
  | .i64 | .isize => ⟨true, 64⟩
  | .i128 => ⟨true, 128⟩

/-- The types that implement `CamDiv`. -/
inductive Implementor where
  | primitive (p : Primitive)
  | u256

namespace Implementor

def Value : Implementor → Type
  | .primitive p => BitVec p.intType.width
  | .u256 => U256

def ops : (T : Implementor) → CamDiv T.Value
  | .primitive p => ofInt p.intType
  | .u256 => CamDiv.u256

def toInt : (T : Implementor) → T.Value → ℤ
  | .primitive p => p.intType.toInt
  | .u256 => fun v => (v.toNat : ℤ)

def max : Implementor → ℤ
  | .primitive p => p.intType.hi
  | .u256 => 2 ^ 256 - 1

theorem exact (T : Implementor) : T.ops.Exact T.toInt T.max := by
  cases T with
  | primitive p =>
    apply exact_ofInt
    · cases p <;> decide
    · cases p <;> decide
  | u256 => exact exact_u256

end Implementor

/-- **Rounded division at every integer type.**  From a dividend that is not negative and a
positive divisor `cam_divc` computes the ceiling of the quotient and `cam_divr` the nearest
integer with halves up; both have a result, so no step of them leaves the type. -/
theorem divc_divr_exact (T : Implementor) (x y : T.Value) (hx : 0 ≤ T.toInt x) (hy : 0 < T.toInt y) :
    (∃ q, T.ops.divc x y = some q ∧ T.toInt q = ⌈(T.toInt x / T.toInt y : ℚ)⌉) ∧
      ∃ q, T.ops.divr x y = some q ∧ T.toInt q = round (T.toInt x / T.toInt y : ℚ) :=
  ⟨T.exact.divc_eq hx hy, T.exact.divr_eq hx hy⟩

/-- Both operands at the maximum. -/
theorem divc_divr_exact_max :
    (∃ q, (ofInt ⟨true, 8⟩).divc 127#8 127#8 = some q ∧
        (⟨true, 8⟩ : IntType).toInt q = ⌈((127 : ℤ) / (127 : ℤ) : ℚ)⌉) ∧
      ∃ q, (ofInt ⟨true, 8⟩).divr 127#8 127#8 = some q ∧
        (⟨true, 8⟩ : IntType).toInt q = round ((127 : ℤ) / (127 : ℤ) : ℚ) :=
  divc_divr_exact (.primitive .i8) 127#8 127#8 (by decide) (by decide)

end CamDiv

end CambrianLang.Core
