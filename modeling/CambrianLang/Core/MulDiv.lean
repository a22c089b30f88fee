/-
  **`CamMulDiv` at every integer type** (`cambrian-core/src/lib.rs`).

  The narrow types multiply and divide in twice their width and cast the result back,
  `usize` and `isize` go through 64 bits, `i128` goes through the magnitudes, and `u128`
  and `U256` divide a double-length product.  The first two cast a quotient that does not
  fit, the last three do not look at the divisor when a factor is zero.
-/
import CambrianLang.Core.Wide
import CambrianLang.Lib.MachineInt

namespace CambrianLang.Core

open CheckedWord MachineInt U256

/-! ### The implementations -/

section Via

variable (t w : IntType)

/-- `wide_muldiv` of `impl_muldiv_via!`. -/
def viaMuldiv (x y z : BitVec t.width) : Option (BitVec t.width) := do
  let p ← w.mul (w.cast (t.toInt x)) (w.cast (t.toInt y))
  let q ← w.div p (w.cast (t.toInt z))
  return t.cast (w.toInt q)

/-- `wide_muldivmod` of `impl_muldiv_via!`. -/
def viaMuldivmod (x y z : BitVec t.width) : Option (BitVec t.width × BitVec t.width) := do
  let p ← w.mul (w.cast (t.toInt x)) (w.cast (t.toInt y))
  let q ← w.div p (w.cast (t.toInt z))
  let r ← w.rem p (w.cast (t.toInt z))
  return (t.cast (w.toInt q), t.cast (w.toInt r))

end Via

/-- `U256::to_u128`. -/
def U256.toU128 (v : U256) : Option U128 := if v.hi = 0 then some v.lo else none

/-- `u128_wide_muldiv`. -/
def u128WideMuldiv (x y z : U128) : Option U128 := do
  let (hi, lo) ← u256WideningMulU128 x y
  let (q, _) ← u256DivRem ⟨hi, lo⟩ (fromU128 z)
  q.toU128

/-- `cam_muldiv` at `u128`. -/
def u128Muldiv (x y z : U128) : Option U128 :=
  if x = 0 ∨ y = 0 then some 0 else u128WideMuldiv x y z

/-- `cam_muldivmod` at `u128`. -/
def u128Muldivmod (x y z : U128) : Option (U128 × U128) :=
  if x = 0 ∨ y = 0 then some (0, 0)
  else do
    let q ← u128WideMuldiv x y z
    let (hi, lo) ← u256WideningMulU128 x y
    let (_, rem) ← u256DivRem ⟨hi, lo⟩ (fromU128 z)
    let rem ← rem.toU128
    return (q, rem)

/-- `i128::unsigned_abs`. -/
def unsignedAbs (x : BitVec 128) : U128 := BitVec.ofNat 128 x.toInt.natAbs

/-- `u128_to_i128_checked`. -/
def u128ToI128Checked (val : U128) (negative : Bool) : Option (BitVec 128) :=
  if negative then
    if val.toNat = 2 ^ 127 then some (BitVec.ofInt 128 (-2 ^ 127))
    else if 2 ^ 127 < val.toNat then none
    else some (-val)
  else if val.toNat ≤ 2 ^ 127 - 1 then some val
  else none

/-- `cam_muldiv` at `i128`. -/
def i128Muldiv (x y z : BitVec 128) : Option (BitVec 128) :=
  if x = 0 ∨ y = 0 then some 0
  else do
    let sign := decide (x.toInt < 0) ^^ decide (y.toInt < 0) ^^ decide (z.toInt < 0)
    let r ← u128Muldiv (unsignedAbs x) (unsignedAbs y) (unsignedAbs z)
    u128ToI128Checked r sign

/-- `cam_muldivmod` at `i128`. -/
def i128Muldivmod (x y z : BitVec 128) : Option (BitVec 128 × BitVec 128) :=
  if x = 0 ∨ y = 0 then some (0, 0)
  else do
    let (qu, ru) ← u128Muldivmod (unsignedAbs x) (unsignedAbs y) (unsignedAbs z)
    let qSign := decide (x.toInt < 0) ^^ decide (y.toInt < 0) ^^ decide (z.toInt < 0)
    let rSign := decide (x.toInt < 0) ^^ decide (y.toInt < 0)
    let q ← u128ToI128Checked qu qSign
    let r ← u128ToI128Checked ru rSign
    return (q, r)

/-- The width of `usize` and `isize`. -/
inductive PointerWidth where
  | p16
  | p32
  | p64
deriving DecidableEq

def PointerWidth.bits : PointerWidth → Nat
  | .p16 => 16
  | .p32 => 32
  | .p64 => 64

section Size

variable (signed : Bool) (ptr : PointerWidth)

abbrev sizeType : IntType := ⟨signed, ptr.bits⟩

abbrev int64 : IntType := ⟨signed, 64⟩

/-- `cam_muldiv` at `usize` and `isize`. -/
def sizeMuldiv (x y z : BitVec ptr.bits) : Option (BitVec ptr.bits) := do
  let t := sizeType signed ptr
  let q ← viaMuldiv (int64 signed) ⟨signed, 128⟩ ((int64 signed).cast (t.toInt x))
    ((int64 signed).cast (t.toInt y)) ((int64 signed).cast (t.toInt z))
  return t.cast ((int64 signed).toInt q)

/-- `cam_muldivmod` at `usize` and `isize`. -/
def sizeMuldivmod (x y z : BitVec ptr.bits) : Option (BitVec ptr.bits × BitVec ptr.bits) := do
  let t := sizeType signed ptr
  let (q, r) ← viaMuldivmod (int64 signed) ⟨signed, 128⟩ ((int64 signed).cast (t.toInt x))
    ((int64 signed).cast (t.toInt y)) ((int64 signed).cast (t.toInt z))
  return (t.cast ((int64 signed).toInt q), t.cast ((int64 signed).toInt r))

end Size

/-- The types with a `CamMulDiv`. -/
inductive CamInt where
  | u8 | u16 | u32 | u64 | u128 | usize
  | i8 | i16 | i32 | i64 | i128 | isize
  | u256
deriving DecidableEq

def CamInt.type (ptr : PointerWidth) : CamInt → IntType
  | .u8 => ⟨false, 8⟩
  | .u16 => ⟨false, 16⟩
  | .u32 => ⟨false, 32⟩
  | .u64 => ⟨false, 64⟩
  | .u128 => ⟨false, 128⟩
  | .usize => ⟨false, ptr.bits⟩
  | .i8 => ⟨true, 8⟩
  | .i16 => ⟨true, 16⟩
  | .i32 => ⟨true, 32⟩
  | .i64 => ⟨true, 64⟩
  | .i128 => ⟨true, 128⟩
  | .isize => ⟨true, ptr.bits⟩
  | .u256 => ⟨false, 256⟩

abbrev CamInt.Value (ptr : PointerWidth) : CamInt → Type
  | .u256 => U256
  | t => BitVec (t.type ptr).width

def CamInt.toInt (ptr : PointerWidth) : (t : CamInt) → t.Value ptr → Int
  | .u256, v => v.toNat
  | .u8, v | .u16, v | .u32, v | .u64, v | .u128, v | .usize, v | .i8, v | .i16, v | .i32, v
  | .i64, v | .i128, v | .isize, v => IntType.toInt _ v

/-- `cam_muldiv`. -/
def CamInt.muldiv (ptr : PointerWidth) :
    (t : CamInt) → t.Value ptr → t.Value ptr → t.Value ptr → Option (t.Value ptr)
  | .u8 => viaMuldiv ⟨false, 8⟩ ⟨false, 16⟩
  | .u16 => viaMuldiv ⟨false, 16⟩ ⟨false, 32⟩
  | .u32 => viaMuldiv ⟨false, 32⟩ ⟨false, 64⟩
  | .u64 => viaMuldiv ⟨false, 64⟩ ⟨false, 128⟩
  | .i8 => viaMuldiv ⟨true, 8⟩ ⟨true, 16⟩
  | .i16 => viaMuldiv ⟨true, 16⟩ ⟨true, 32⟩
  | .i32 => viaMuldiv ⟨true, 32⟩ ⟨true, 64⟩
  | .i64 => viaMuldiv ⟨true, 64⟩ ⟨true, 128⟩
  | .u128 => u128Muldiv
  | .i128 => i128Muldiv
  | .usize => sizeMuldiv false ptr
  | .isize => sizeMuldiv true ptr
  | .u256 => camMuldiv

/-- `cam_muldivmod`. -/
def CamInt.muldivmod (ptr : PointerWidth) :
    (t : CamInt) → t.Value ptr → t.Value ptr → t.Value ptr → Option (t.Value ptr × t.Value ptr)
  | .u8 => viaMuldivmod ⟨false, 8⟩ ⟨false, 16⟩
  | .u16 => viaMuldivmod ⟨false, 16⟩ ⟨false, 32⟩
  | .u32 => viaMuldivmod ⟨false, 32⟩ ⟨false, 64⟩
  | .u64 => viaMuldivmod ⟨false, 64⟩ ⟨false, 128⟩
  | .i8 => viaMuldivmod ⟨true, 8⟩ ⟨true, 16⟩
  | .i16 => viaMuldivmod ⟨true, 16⟩ ⟨true, 32⟩
  | .i32 => viaMuldivmod ⟨true, 32⟩ ⟨true, 64⟩
  | .i64 => viaMuldivmod ⟨true, 64⟩ ⟨true, 128⟩
  | .u128 => u128Muldivmod
  | .i128 => i128Muldivmod
  | .usize => sizeMuldivmod false ptr
  | .isize => sizeMuldivmod true ptr
  | .u256 => camMuldivmod

/-! ### What they should do -/

section Contract

variable {α : Type} (val : α → Int) (x y z : α)

def quotient : Int := (val x * val y).tdiv (val z)

/-- A panic where there is no quotient to return, the quotient everywhere else. -/
def ExactQuotient : Option α → Prop
  | none => val z = 0 ∨ ¬ ∃ v, val v = quotient val x y z
  | some q => val z ≠ 0 ∧ val q = quotient val x y z

/-- The same, with the remainder. -/
def ExactDivision : Option (α × α) → Prop
  | none => val z = 0 ∨ ¬ ∃ v, val v = quotient val x y z
  | some (q, r) =>
      val z ≠ 0 ∧ val q = quotient val x y z ∧ val r = (val x * val y).tmod (val z)

end Contract

/-- The types whose `cam_muldiv` casts the quotient. -/
def CamInt.casts : CamInt → Bool
  | .u128 | .i128 | .u256 => false
  | _ => true

/-! ### Exact results -/

section Contract

variable {α : Type} {val : α → Int} {x y z : α}

theorem exactQuotient_map_fst {res : Option (α × α)} (h : ExactDivision val x y z res) :
    ExactQuotient val x y z (res.map Prod.fst) := by
  cases res with
  | none => exact h
  | some p => exact ⟨h.1, h.2.1⟩

/-- On unsigned values it is enough to look at natural numbers. -/
theorem exactDivision_of_nat {nat : α → Nat} {res : Option (α × α)} (hz : nat z ≠ 0)
    (hnone : res = none → ¬ ∃ v, nat v = nat x * nat y / nat z)
    (hsome : ∀ q r, res = some (q, r) →
      nat q = nat x * nat y / nat z ∧ nat r = nat x * nat y % nat z) :
    ExactDivision (fun v => (nat v : Int)) x y z res := by
  have hquot : quotient (fun v => (nat v : Int)) x y z = ((nat x * nat y / nat z : Nat) : Int) := by
    rw [quotient, ← Int.natCast_mul, ← Int.ofNat_tdiv]
  cases res with
  | none =>
    refine .inr ?_
    rintro ⟨v, hv⟩
    rw [hquot, Int.natCast_inj] at hv
    exact hnone rfl ⟨v, hv⟩
  | some p =>
    obtain ⟨hq, hr⟩ := hsome p.1 p.2 rfl
    refine ⟨fun h => hz (Int.natCast_eq_zero.mp h), ?_, ?_⟩
    · show (nat p.1 : Int) = _
      rw [hquot, hq]
    · show (nat p.2 : Int) = _
      rw [hr, ← Int.natCast_mul, ← Int.ofNat_tmod]

/-- An implementation that returns something for every divisor but zero. -/
theorem exactDivision_cast_iff {res : Option (α × α)} (hzero : val z = 0 → res = none)
    (hres : val z ≠ 0 → ∃ q r, res = some (q, r) ∧
      ((∃ v, val v = quotient val x y z) → val q = quotient val x y z) ∧
        val r = (val x * val y).tmod (val z)) :
    ExactDivision val x y z res ↔ val z = 0 ∨ ∃ v, val v = quotient val x y z := by
  by_cases hz : val z = 0
  · rw [hzero hz]
    exact iff_of_true (.inl hz) (.inl hz)
  · obtain ⟨q, r, rfl, hq, hr⟩ := hres hz
    constructor
    · exact fun h => .inr ⟨q, h.2.1⟩
    · rintro (h | h)
      · exact absurd h hz
      · exact ⟨hz, hq h, hr⟩

/-- An implementation that is exact but for a product of zero, where it returns. -/
theorem exactDivision_shortcut_iff {res : Option (α × α)}
    (hres : val z ≠ 0 → ExactDivision val x y z res)
    (hnone : val z = 0 → val x ≠ 0 → val y ≠ 0 → res = none)
    (hsome : val x = 0 ∨ val y = 0 → res.isSome = true) :
    ExactDivision val x y z res ↔ ¬ (val z = 0 ∧ (val x = 0 ∨ val y = 0)) := by
  constructor
  · rintro h ⟨hz, hxy⟩
    obtain ⟨p, hp⟩ := Option.isSome_iff_exists.mp (hsome hxy)
    rw [hp] at h
    exact h.1 hz
  · intro h
    by_cases hz : val z = 0
    · rw [not_and, not_or] at h
      rw [hnone hz (h hz).1 (h hz).2]
      exact .inl hz
    · exact hres hz

end Contract

/-! ### In twice the width -/

section Via

variable {t : IntType} (h : 0 < t.width) (x y z : BitVec t.width)

include h

theorem via_product : t.wide.mul (t.wide.cast (t.toInt x)) (t.wide.cast (t.toInt y)) =
    some (t.wide.cast (t.toInt x * t.toInt y)) := by
  have hx := IntType.fits_toInt h x
  have hy := IntType.fits_toInt h y
  have hw : 0 < t.wide.width := Nat.mul_pos (by omega) h
  rw [IntType.mul, IntType.toInt_cast hw (hx.wide h), IntType.toInt_cast hw (hy.wide h),
    IntType.checked_of_fits (IntType.fits_wide_mul h hx hy)]

theorem via_quotient (hz : t.toInt z ≠ 0) :
    t.wide.div (t.wide.cast (t.toInt x * t.toInt y)) (t.wide.cast (t.toInt z)) =
      some (t.wide.cast (quotient t.toInt x y z)) := by
  have hx := IntType.fits_toInt h x
  have hy := IntType.fits_toInt h y
  have hzf := IntType.fits_toInt h z
  have hw : 0 < t.wide.width := Nat.mul_pos (by omega) h
  rw [IntType.div, IntType.toInt_cast hw (hzf.wide h), if_neg hz,
    IntType.toInt_cast hw (IntType.fits_wide_mul h hx hy),
    IntType.checked_of_fits (IntType.fits_wide_tdiv h hx hy hzf)]
  rfl

theorem via_remainder (hz : t.toInt z ≠ 0) :
    t.wide.rem (t.wide.cast (t.toInt x * t.toInt y)) (t.wide.cast (t.toInt z)) =
      some (t.wide.cast ((t.toInt x * t.toInt y).tmod (t.toInt z))) := by
  have hx := IntType.fits_toInt h x
  have hy := IntType.fits_toInt h y
  have hzf := IntType.fits_toInt h z
  have hw : 0 < t.wide.width := Nat.mul_pos (by omega) h
  rw [IntType.rem, IntType.toInt_cast hw (hzf.wide h), if_neg hz,
    IntType.toInt_cast hw (IntType.fits_wide_mul h hx hy),
    if_pos (IntType.fits_wide_tdiv h hx hy hzf)]

theorem via_zero (hz : t.toInt z = 0) :
    t.wide.div (t.wide.cast (t.toInt x * t.toInt y)) (t.wide.cast (t.toInt z)) = none := by
  have hw : 0 < t.wide.width := Nat.mul_pos (by omega) h
  rw [IntType.div, IntType.toInt_cast hw ((IntType.fits_toInt h z).wide h), if_pos hz]

theorem fits_remainder (hz : t.toInt z ≠ 0) :
    t.Fits ((t.toInt x * t.toInt y).tmod (t.toInt z)) :=
  IntType.fits_tmod
    (fun hs => Int.mul_nonneg ((IntType.fits_toInt h x).natAbs_le.2 hs)
      ((IntType.fits_toInt h y).natAbs_le.2 hs)) (IntType.fits_toInt h z) hz

/-- What comes out is the cast of the quotient, whether it fits or not. -/
theorem viaMuldivmod_eq : viaMuldivmod t t.wide x y z =
    if t.toInt z = 0 then none
    else some (t.cast (quotient t.toInt x y z),
      t.cast ((t.toInt x * t.toInt y).tmod (t.toInt z))) := by
  have hw : 0 < t.wide.width := Nat.mul_pos (by omega) h
  rw [viaMuldivmod, via_product h, Option.bind_eq_bind, Option.bind_some]
  by_cases hz : t.toInt z = 0
  · rw [via_zero h x y z hz, if_pos hz]
    rfl
  · have hq : t.wide.Fits (quotient t.toInt x y z) :=
      IntType.fits_wide_tdiv h (IntType.fits_toInt h x) (IntType.fits_toInt h y)
        (IntType.fits_toInt h z)
    rw [via_quotient h x y z hz, Option.bind_some, via_remainder h x y z hz, Option.bind_some,
      if_neg hz, IntType.toInt_cast hw hq,
      IntType.toInt_cast hw ((fits_remainder h x y z hz).wide h)]
    rfl

theorem viaMuldiv_eq_fst : viaMuldiv t t.wide x y z = (viaMuldivmod t t.wide x y z).map Prod.fst := by
  unfold viaMuldiv viaMuldivmod
  by_cases hz : t.toInt z = 0
  · simp only [via_product h, via_zero h x y z hz, Option.bind_eq_bind, Option.bind_some,
      Option.bind_none, Option.map_none]
  · simp only [via_product h, via_quotient h x y z hz, via_remainder h x y z hz,
      Option.bind_eq_bind, Option.bind_some, Option.pure_def, Option.map_some]

theorem viaMuldivmod_iff : ExactDivision t.toInt x y z (viaMuldivmod t t.wide x y z) ↔
    t.toInt z = 0 ∨ ∃ v, t.toInt v = quotient t.toInt x y z := by
  rw [viaMuldivmod_eq h]
  apply exactDivision_cast_iff
  · exact fun hz => if_pos hz
  · intro hz
    refine ⟨_, _, if_neg hz, ?_, IntType.toInt_cast h (fits_remainder h x y z hz)⟩
    exact fun hq => IntType.toInt_cast h ((IntType.exists_toInt_iff h).mp hq)

end Via

/-! ### `usize` and `isize` -/

section Size

variable (signed : Bool) (ptr : PointerWidth)

theorem PointerWidth.bits_pos (ptr : PointerWidth) : 0 < ptr.bits := by
  cases ptr <;> decide

theorem int64_pos : 0 < (int64 signed).width := show 0 < 64 by omega

theorem fits_int64 {n : Int} (hn : (sizeType signed ptr).Fits n) : (int64 signed).Fits n := by
  cases signed <;> cases ptr <;> exact ⟨le_trans (by decide) hn.1, le_trans hn.2 (by decide)⟩

theorem toInt_int64 (x : BitVec ptr.bits) :
    (int64 signed).toInt ((int64 signed).cast ((sizeType signed ptr).toInt x)) =
      (sizeType signed ptr).toInt x := by
  have hx : (sizeType signed ptr).Fits ((sizeType signed ptr).toInt x) :=
    IntType.fits_toInt (t := sizeType signed ptr) ptr.bits_pos x
  exact IntType.toInt_cast (int64_pos signed) (fits_int64 signed ptr hx)

variable (x y z : BitVec ptr.bits)

theorem sizeMuldivmod_eq : sizeMuldivmod signed ptr x y z =
    if (sizeType signed ptr).toInt z = 0 then none
    else some
      ((sizeType signed ptr).cast ((int64 signed).toInt
        ((int64 signed).cast (quotient (sizeType signed ptr).toInt x y z))),
      (sizeType signed ptr).cast (((sizeType signed ptr).toInt x * (sizeType signed ptr).toInt y).tmod
        ((sizeType signed ptr).toInt z))) := by
  have hvia := viaMuldivmod_eq (t := int64 signed) (int64_pos signed)
    ((int64 signed).cast ((sizeType signed ptr).toInt x))
    ((int64 signed).cast ((sizeType signed ptr).toInt y))
    ((int64 signed).cast ((sizeType signed ptr).toInt z))
  simp only [quotient, toInt_int64] at hvia
  unfold sizeMuldivmod
  dsimp only
  rw [show (⟨signed, 128⟩ : IntType) = (int64 signed).wide from rfl, hvia]
  by_cases hz : (sizeType signed ptr).toInt z = 0
  · rw [if_pos hz, if_pos hz]
    rfl
  · have hr : (sizeType signed ptr).Fits (((sizeType signed ptr).toInt x *
        (sizeType signed ptr).toInt y).tmod ((sizeType signed ptr).toInt z)) :=
      fits_remainder (t := sizeType signed ptr) ptr.bits_pos x y z hz
    rw [if_neg hz, if_neg hz, Option.bind_eq_bind, Option.bind_some,
      IntType.toInt_cast (int64_pos signed) (fits_int64 signed ptr hr)]
    rfl

theorem sizeMuldiv_eq_fst :
    sizeMuldiv signed ptr x y z = (sizeMuldivmod signed ptr x y z).map Prod.fst := by
  unfold sizeMuldiv sizeMuldivmod
  dsimp only
  rw [show (⟨signed, 128⟩ : IntType) = (int64 signed).wide from rfl,
    viaMuldiv_eq_fst (int64_pos signed)]
  cases viaMuldivmod (int64 signed) (int64 signed).wide
      ((int64 signed).cast ((sizeType signed ptr).toInt x))
      ((int64 signed).cast ((sizeType signed ptr).toInt y))
      ((int64 signed).cast ((sizeType signed ptr).toInt z)) with
  | none => rfl
  | some p => rfl

theorem sizeMuldivmod_iff :
    ExactDivision (sizeType signed ptr).toInt x y z (sizeMuldivmod signed ptr x y z) ↔
      (sizeType signed ptr).toInt z = 0 ∨
        ∃ v, (sizeType signed ptr).toInt v = quotient (sizeType signed ptr).toInt x y z := by
  have hpos : 0 < (sizeType signed ptr).width := ptr.bits_pos
  rw [sizeMuldivmod_eq]
  apply exactDivision_cast_iff
  · exact fun hz => if_pos hz
  · intro hz
    refine ⟨_, _, if_neg hz, ?_, ?_⟩
    · intro hq
      have hfits := (IntType.exists_toInt_iff hpos).mp hq
      rw [IntType.toInt_cast (int64_pos signed) (fits_int64 signed ptr hfits)]
      exact IntType.toInt_cast hpos hfits
    · exact IntType.toInt_cast hpos (fits_remainder (t := sizeType signed ptr) hpos x y z hz)

end Size

/-! ### `u128` -/

theorem toU128_eq {v : U256} {n : Nat} (h : v.toNat = n) : v.toU128 = exact 128 n := by
  have hlo := v.lo.isLt
  unfold U256.toU128
  subst h
  by_cases hhi : v.hi = 0
  · rw [if_pos hhi, eq_comm, exact_eq_some, U256.toNat, hhi]
    simp
  · have hpos := toNat_pos hhi
    rw [if_neg hhi, exact_of_le]
    unfold U256.toNat
    omega

theorem wide_toNat {x y hi lo : U128}
    (h : hi.toNat * 2 ^ 128 + lo.toNat = x.toNat * y.toNat) :
    (⟨hi, lo⟩ : U256).toNat = x.toNat * y.toNat := h

theorem u128WideMuldiv_eq {x y z : U128} (hz : z.toNat ≠ 0) :
    u128WideMuldiv x y z = exact 128 (x.toNat * y.toNat / z.toNat) := by
  obtain ⟨hi, lo, hmul, hval⟩ := u256WideningMulU128_eq x y
  have hz' : (fromU128 z).toNat ≠ 0 := by rwa [toNat_fromU128]
  obtain ⟨q, r, hdiv, hq, -⟩ := u256DivRem_eq (n := ⟨hi, lo⟩) hz'
  rw [toNat_fromU128, wide_toNat hval] at hq
  simp only [u128WideMuldiv, hmul, hdiv, Option.bind_eq_bind, Option.bind_some]
  exact toU128_eq hq

theorem u128WideMuldiv_zero {x y z : U128} (hz : z.toNat = 0) : u128WideMuldiv x y z = none := by
  obtain ⟨hi, lo, hmul, -⟩ := u256WideningMulU128_eq x y
  have hdiv := u256DivRem_zero (n := ⟨hi, lo⟩) (d := fromU128 z) (by rwa [toNat_fromU128])
  simp only [u128WideMuldiv, hmul, hdiv, Option.bind_eq_bind, Option.bind_some, Option.bind_none]

theorem eq_zero_iff_toNat {x : U128} : x = 0 ↔ x.toNat = 0 := by
  rw [← BitVec.toNat_inj]
  rfl

/-- The remainder is below the divisor, so it is returned whenever the quotient is. -/
theorem u128Muldivmod_eq {x y z : U128} (hz : z.toNat ≠ 0) :
    u128Muldivmod x y z = (exact 128 (x.toNat * y.toNat / z.toNat)).map fun q =>
      (q, BitVec.ofNat 128 (x.toNat * y.toNat % z.toNat)) := by
  unfold u128Muldivmod
  by_cases hxy : x = 0 ∨ y = 0
  · have hprod : x.toNat * y.toNat = 0 :=
      Nat.mul_eq_zero.mpr (hxy.imp eq_zero_iff_toNat.mp eq_zero_iff_toNat.mp)
    rw [if_pos hxy, hprod, Nat.zero_div, Nat.zero_mod, exact_of_lt (by omega)]
    rfl
  · obtain ⟨hi, lo, hmul, hval⟩ := u256WideningMulU128_eq x y
    have hz' : (fromU128 z).toNat ≠ 0 := by rwa [toNat_fromU128]
    obtain ⟨q, r, hdiv, -, hr⟩ := u256DivRem_eq (n := ⟨hi, lo⟩) hz'
    rw [toNat_fromU128, wide_toNat hval] at hr
    have hlt : x.toNat * y.toNat % z.toNat < 2 ^ 128 :=
      (Nat.mod_lt _ (Nat.pos_of_ne_zero hz)).trans z.isLt
    have hrem : r.toU128 = some (BitVec.ofNat 128 (x.toNat * y.toNat % z.toNat)) := by
      rw [toU128_eq hr, exact_of_lt hlt]
    simp only [if_neg hxy, u128WideMuldiv_eq hz, hmul, hdiv, hrem, Option.bind_eq_bind,
      Option.bind_some, Option.pure_def]
    cases exact 128 (x.toNat * y.toNat / z.toNat) with
    | none => rfl
    | some q => rfl

theorem u128Muldivmod_zero {x y z : U128} (hz : z.toNat = 0) (hxy : ¬ (x = 0 ∨ y = 0)) :
    u128Muldivmod x y z = none := by
  rw [u128Muldivmod, if_neg hxy, u128WideMuldiv_zero hz]
  rfl

theorem u128Muldiv_eq_fst (x y z : U128) :
    u128Muldiv x y z = (u128Muldivmod x y z).map Prod.fst := by
  by_cases hxy : x = 0 ∨ y = 0
  · rw [u128Muldiv, u128Muldivmod, if_pos hxy, if_pos hxy]
    rfl
  · by_cases hz : z.toNat = 0
    · rw [u128Muldivmod_zero hz hxy, u128Muldiv, if_neg hxy, u128WideMuldiv_zero hz]
      rfl
    · rw [u128Muldivmod_eq hz, u128Muldiv, if_neg hxy, u128WideMuldiv_eq hz, Option.map_map]
      exact Option.map_id.symm ▸ rfl

theorem u128Muldivmod_exact {x y z : U128} (hz : z.toNat ≠ 0) :
    ExactDivision (fun v : U128 => (v.toNat : Int)) x y z (u128Muldivmod x y z) := by
  rw [u128Muldivmod_eq hz]
  apply exactDivision_of_nat hz
  · intro hnone
    rw [Option.map_eq_none_iff, exact_eq_none] at hnone
    rintro ⟨v, hv⟩
    exact absurd v.isLt (by omega)
  · intro q r h
    obtain ⟨q', hq', hqr⟩ := Option.map_eq_some_iff.mp h
    cases hqr
    refine ⟨exact_eq_some.mp hq', ?_⟩
    rw [BitVec.toNat_ofNat, Nat.mod_eq_of_lt]
    exact (Nat.mod_lt _ (Nat.pos_of_ne_zero hz)).trans z.isLt

theorem u128Muldivmod_iff {x y z : U128} :
    ExactDivision (fun v : U128 => (v.toNat : Int)) x y z (u128Muldivmod x y z) ↔
      ¬ ((z.toNat : Int) = 0 ∧ ((x.toNat : Int) = 0 ∨ (y.toNat : Int) = 0)) := by
  apply exactDivision_shortcut_iff
  · intro hz
    exact u128Muldivmod_exact (fun h => hz (Int.natCast_eq_zero.mpr h))
  · intro hz hx hy
    apply u128Muldivmod_zero (Int.natCast_eq_zero.mp hz)
    rintro (h | h)
    · exact hx (Int.natCast_eq_zero.mpr (eq_zero_iff_toNat.mp h))
    · exact hy (Int.natCast_eq_zero.mpr (eq_zero_iff_toNat.mp h))
  · intro hxy
    have h : x = 0 ∨ y = 0 := hxy.imp (eq_zero_iff_toNat.mpr <| Int.natCast_eq_zero.mp ·)
      (eq_zero_iff_toNat.mpr <| Int.natCast_eq_zero.mp ·)
    rw [u128Muldivmod, if_pos h]
    rfl

/-! ### `i128` -/

abbrev int128 : IntType := ⟨true, 128⟩

theorem int128_pos : 0 < int128.width := show 0 < 128 by omega

theorem unsignedAbs_toNat (x : BitVec 128) : (unsignedAbs x).toNat = x.toInt.natAbs := by
  have hx := (IntType.fits_toInt int128_pos x).natAbs_le.1
  rw [unsignedAbs, BitVec.toNat_ofNat]
  exact Nat.mod_eq_of_lt (lt_of_le_of_lt hx (by decide))

theorem toInt_eq_zero_iff {x : BitVec 128} : x = 0 ↔ x.toInt = 0 := by
  rw [← BitVec.toInt_inj]
  rfl

theorem unsignedAbs_eq_zero {x : BitVec 128} : unsignedAbs x = 0 ↔ x = 0 := by
  rw [eq_zero_iff_toNat, unsignedAbs_toNat, Int.natAbs_eq_zero, toInt_eq_zero_iff]

theorem u128ToI128Checked_eq (val : U128) (negative : Bool) :
    u128ToI128Checked val negative = int128.checked (IntType.withSign negative val.toNat) := by
  have hval : BitVec.ofInt 128 (val.toNat : Int) = val := by
    rw [BitVec.ofInt_natCast, BitVec.ofNat_toNat, BitVec.setWidth_eq]
  have hfits : ∀ n : Int, int128.Fits n ↔ -2 ^ 127 ≤ n ∧ n ≤ 2 ^ 127 - 1 := fun n => Iff.rfl
  unfold u128ToI128Checked IntType.withSign IntType.checked
  cases negative with
  | false =>
    simp only [Bool.false_eq_true, if_false, hfits]
    by_cases hle : val.toNat ≤ 2 ^ 127 - 1
    · rw [if_pos hle, if_pos (by omega)]
      exact congrArg some hval.symm
    · rw [if_neg hle, if_neg (by omega)]
  | true =>
    simp only [if_true, hfits]
    by_cases heq : val.toNat = 2 ^ 127
    · rw [if_pos heq, if_pos (by omega), heq]
      rfl
    · rw [if_neg heq]
      by_cases hlt : 2 ^ 127 < val.toNat
      · rw [if_pos hlt, if_neg (by omega)]
      · rw [if_neg hlt, if_pos (by omega), IntType.cast, BitVec.ofInt_neg, hval]

theorem unsignedAbs_ne_zero {z : BitVec 128} (hz : z.toInt ≠ 0) : (unsignedAbs z).toNat ≠ 0 := by
  rw [unsignedAbs_toNat]
  exact Int.natAbs_ne_zero.mpr hz

/-- The remainder always fits, so only the quotient can be refused. -/
theorem i128Muldivmod_quotient {x y z : BitVec 128} (hz : z.toInt ≠ 0) (hxy : ¬ (x = 0 ∨ y = 0)) :
    i128Muldivmod x y z =
      (exact 128 (x.toInt.natAbs * y.toInt.natAbs / z.toInt.natAbs)).bind fun q =>
        (int128.checked (IntType.withSign
          (decide (x.toInt < 0) ^^ decide (y.toInt < 0) ^^ decide (z.toInt < 0)) q.toNat)).map
          fun v => (v, int128.cast ((x.toInt * y.toInt).tmod z.toInt)) := by
  have hzabs := unsignedAbs_ne_zero hz
  have hlt : (unsignedAbs x).toNat * (unsignedAbs y).toNat % (unsignedAbs z).toNat < 2 ^ 128 :=
    (Nat.mod_lt _ (Nat.pos_of_ne_zero hzabs)).trans (unsignedAbs z).isLt
  have hrem : int128.Fits ((x.toInt * y.toInt).tmod z.toInt) :=
    fits_remainder (t := int128) int128_pos x y z hz
  rw [i128Muldivmod, if_neg hxy, u128Muldivmod_eq hzabs, Option.bind_eq_bind]
  simp only [unsignedAbs_toNat] at hlt ⊢
  cases exact 128 (x.toInt.natAbs * y.toInt.natAbs / z.toInt.natAbs) with
  | none => rfl
  | some q =>
    simp only [Option.map_some, Option.bind_some, u128ToI128Checked_eq, BitVec.toNat_ofNat,
      Nat.mod_eq_of_lt hlt, ← IntType.mul_tmod_eq, IntType.checked_of_fits hrem]
    cases int128.checked (IntType.withSign
        (decide (x.toInt < 0) ^^ decide (y.toInt < 0) ^^ decide (z.toInt < 0)) q.toNat) with
    | none => rfl
    | some v => rfl

theorem i128Muldivmod_eq {x y z : BitVec 128} (hz : z.toInt ≠ 0) :
    i128Muldivmod x y z = (int128.checked (quotient BitVec.toInt x y z)).map fun q =>
      (q, int128.cast ((x.toInt * y.toInt).tmod z.toInt)) := by
  by_cases hxy : x = 0 ∨ y = 0
  · have hprod : x.toInt * y.toInt = 0 :=
      Int.mul_eq_zero.mpr (hxy.imp toInt_eq_zero_iff.mp toInt_eq_zero_iff.mp)
    rw [i128Muldivmod, if_pos hxy, quotient, hprod, Int.zero_tdiv, Int.zero_tmod]
    rfl
  · rw [i128Muldivmod_quotient hz hxy]
    by_cases hfit : x.toInt.natAbs * y.toInt.natAbs / z.toInt.natAbs < 2 ^ 128
    · rw [exact_of_lt hfit, Option.bind_some, BitVec.toNat_ofNat, Nat.mod_eq_of_lt hfit,
        ← IntType.mul_tdiv_eq, quotient]
    · -- a magnitude of `2 ^ 128` or more is beyond both ends of `i128`
      have hbig : ¬ int128.Fits (quotient BitVec.toInt x y z) := by
        intro hq
        have hle := hq.natAbs_le.1
        rw [quotient, IntType.mul_tdiv_eq] at hle
        have hmag : int128.magnitude = 2 ^ 127 := rfl
        rw [hmag, IntType.withSign] at hle
        split at hle <;> omega
      rw [exact_of_le (Nat.not_lt.mp hfit), IntType.checked_of_not_fits hbig]
      rfl

theorem i128Muldivmod_zero {x y z : BitVec 128} (hz : z.toInt = 0) (hxy : ¬ (x = 0 ∨ y = 0)) :
    i128Muldivmod x y z = none := by
  have hzabs : (unsignedAbs z).toNat = 0 := by
    rw [unsignedAbs_toNat, hz]
    rfl
  have habs : ¬ (unsignedAbs x = 0 ∨ unsignedAbs y = 0) := by
    rwa [unsignedAbs_eq_zero, unsignedAbs_eq_zero]
  rw [i128Muldivmod, if_neg hxy, u128Muldivmod_zero hzabs habs]
  rfl

theorem i128Muldivmod_iff {x y z : BitVec 128} :
    ExactDivision BitVec.toInt x y z (i128Muldivmod x y z) ↔
      ¬ (z.toInt = 0 ∧ (x.toInt = 0 ∨ y.toInt = 0)) := by
  apply exactDivision_shortcut_iff
  · intro hz
    rw [i128Muldivmod_eq hz]
    have hrem : int128.Fits ((x.toInt * y.toInt).tmod z.toInt) :=
      fits_remainder (t := int128) int128_pos x y z hz
    by_cases hfit : int128.Fits (quotient BitVec.toInt x y z)
    · rw [IntType.checked_of_fits hfit]
      exact ⟨hz, IntType.toInt_cast int128_pos hfit, IntType.toInt_cast int128_pos hrem⟩
    · rw [IntType.checked_of_not_fits hfit]
      refine .inr ?_
      exact fun h => hfit ((IntType.exists_toInt_iff int128_pos).mp h)
  · intro hz hx hy
    apply i128Muldivmod_zero hz
    rintro (h | h)
    · exact hx (toInt_eq_zero_iff.mp h)
    · exact hy (toInt_eq_zero_iff.mp h)
  · intro hxy
    rw [i128Muldivmod, if_pos (hxy.imp toInt_eq_zero_iff.mpr toInt_eq_zero_iff.mpr)]
    rfl

/-- The quotient of `cam_muldiv` is checked whether or not there is a remainder to check. -/
theorem i128Muldiv_eq_fst (x y z : BitVec 128) :
    i128Muldiv x y z = (i128Muldivmod x y z).map Prod.fst := by
  by_cases hxy : x = 0 ∨ y = 0
  · rw [i128Muldiv, i128Muldivmod, if_pos hxy, if_pos hxy]
    rfl
  · have habs : ¬ (unsignedAbs x = 0 ∨ unsignedAbs y = 0) := by
      rwa [unsignedAbs_eq_zero, unsignedAbs_eq_zero]
    by_cases hz : z.toInt = 0
    · have hzabs : (unsignedAbs z).toNat = 0 := by
        rw [unsignedAbs_toNat, hz]
        rfl
      rw [i128Muldivmod_zero hz hxy, i128Muldiv, if_neg hxy, u128Muldiv_eq_fst,
        u128Muldivmod_zero hzabs habs]
      rfl
    · rw [i128Muldivmod_quotient hz hxy, i128Muldiv, if_neg hxy, u128Muldiv_eq_fst,
        u128Muldivmod_eq (unsignedAbs_ne_zero hz)]
      simp only [unsignedAbs_toNat]
      cases exact 128 (x.toInt.natAbs * y.toInt.natAbs / z.toInt.natAbs) with
      | none => rfl
      | some q =>
        simp only [Option.map_some, Option.bind_eq_bind, Option.bind_some, u128ToI128Checked_eq]
        cases int128.checked (IntType.withSign
            (decide (x.toInt < 0) ^^ decide (y.toInt < 0) ^^ decide (z.toInt < 0)) q.toNat) with
        | none => rfl
        | some v => rfl

/-! ### `U256` -/

theorem leadingZeros_zero {v : U256} (hv : v.toNat = 0) : v.leadingZeros = 256 := by
  rw [leadingZeros_toWord, CheckedWord.leadingZeros, toNat_toWord, hv, Nat.size_zero]

/-- The loop starts above its last position and stops there. -/
theorem u512DivByU256_zero {n : U256 × U256} {d : U256} (hd : d.toNat = 0) :
    u512DivByU256 n d = none := by
  unfold u512DivByU256
  by_cases hn : n.1.toNat = 0
  · rw [if_pos ((isZero_iff n.1).mpr hn), u256DivRem_zero hd]
    rfl
  · have hnw : n.1.toWord ≠ 0#256 := fun h => hn (by rw [← toNat_toWord, h]; rfl)
    have hnLz := leadingZeros_lt hnw
    rw [← leadingZeros_toWord] at hnLz
    have hdsh : ∀ i, u512ToNat (u512ShlU256 d i) = 0 := by
      intro i
      rw [u512ShlU256_toNat, hd, Nat.zero_mul]
      rw [hd, Nat.zero_mul]
      omega
    have hstep : ∀ i, 256 ≤ i → u512DivStep d i (n, zero) = none := by
      intro i hi
      obtain ⟨rem, hrem, -⟩ := u512Sub_of_le (a := n) (b := u512ShlU256 d i)
        (by rw [hdsh]; exact Nat.zero_le _)
      simp only [u512DivStep, u512Gte_eq, hdsh, Nat.zero_le, decide_true, if_true, hrem,
        Nat.not_lt.mpr hi, if_false, Option.bind_eq_bind, Option.bind_some]
    rw [if_neg (by simp [isZero_iff, hn])]
    dsimp only
    rw [if_neg (by rw [leadingZeros_zero hd]; omega), LongArithmetic.DivMachine.run, hstep _ (by
      rw [leadingZeros_zero hd]; omega)]
    rfl

theorem camMuldivmod_zero {x y z : U256} (hz : z.toNat = 0) (hx : x.toNat ≠ 0)
    (hy : y.toNat ≠ 0) : camMuldivmod x y z = none := by
  obtain ⟨n, hn, -⟩ := u512Mul_eq x y
  rw [camMuldivmod, if_neg (by simp [isZero_iff, hx, hy]), hn, Option.bind_eq_bind,
    Option.bind_some, u512DivByU256_zero hz]
  rfl

theorem camMuldivmod_iff {x y z : U256} :
    ExactDivision (fun v : U256 => (v.toNat : Int)) x y z (camMuldivmod x y z) ↔
      ¬ ((z.toNat : Int) = 0 ∧ ((x.toNat : Int) = 0 ∨ (y.toNat : Int) = 0)) := by
  apply exactDivision_shortcut_iff
  · intro h
    have hz : z.toNat ≠ 0 := fun hz => h (Int.natCast_eq_zero.mpr hz)
    have hlt : x.toNat * y.toNat % z.toNat < 2 ^ 256 :=
      (Nat.mod_lt _ (Nat.pos_of_ne_zero hz)).trans z.toNat_lt
    obtain ⟨r, hr, hrv⟩ := exists_checked hlt
    rw [camMuldivmod_eq hz, hr]
    apply exactDivision_of_nat hz
    · intro hnone
      rintro ⟨v, hv⟩
      rw [checked_eq_some.mpr hv] at hnone
      cases hnone
    · intro q r' hqr
      obtain ⟨q', hq', heq⟩ := Option.bind_eq_some_iff.mp hqr
      cases heq
      exact ⟨checked_eq_some.mp hq', hrv⟩
  · intro hz hx hy
    exact camMuldivmod_zero (Int.natCast_eq_zero.mp hz) (fun h => hx (Int.natCast_eq_zero.mpr h))
      (fun h => hy (Int.natCast_eq_zero.mpr h))
  · intro hxy
    rw [Int.natCast_eq_zero, Int.natCast_eq_zero] at hxy
    rw [camMuldivmod, if_pos (by simpa [isZero_iff] using hxy)]
    rfl

theorem camMuldiv_eq_fst (x y z : U256) : camMuldiv x y z = (camMuldivmod x y z).map Prod.fst := by
  by_cases hz : z.toNat = 0
  · by_cases hxy : x.toNat = 0 ∨ y.toNat = 0
    · rw [camMuldiv, camMuldivmod, if_pos (by simpa [isZero_iff] using hxy),
        if_pos (by simpa [isZero_iff] using hxy)]
      rfl
    · have hx : x.toNat ≠ 0 := fun h => hxy (.inl h)
      have hy : y.toNat ≠ 0 := fun h => hxy (.inr h)
      obtain ⟨n, hn, -⟩ := u512Mul_eq x y
      rw [camMuldivmod_zero hz hx hy, camMuldiv, if_neg (by simp [isZero_iff, hx, hy]), hn,
        Option.bind_eq_bind, Option.bind_some, u512DivByU256_zero hz]
      rfl
  · have hlt : x.toNat * y.toNat % z.toNat < 2 ^ 256 :=
      (Nat.mod_lt _ (Nat.pos_of_ne_zero hz)).trans z.toNat_lt
    obtain ⟨r, hr, -⟩ := exists_checked hlt
    rw [camMuldiv_eq hz, camMuldivmod_eq hz, hr]
    cases checked (x.toNat * y.toNat / z.toNat) with
    | none => rfl
    | some q => rfl

/-! ### Every type -/

section Each

variable {α : Type} {val : α → Int} {x y z : α} {q : Option α} {d : Option (α × α)}

theorem both_iff_of_fst {c : Prop} (hfst : q = d.map Prod.fst)
    (h : ExactDivision val x y z d ↔ c) :
    (ExactQuotient val x y z q ∧ ExactDivision val x y z d) ↔ c := by
  rw [← h, hfst]
  exact and_iff_right_of_imp exactQuotient_map_fst

end Each

/-- **Where `cam_muldiv` and `cam_muldivmod` keep their contract.**  A type that casts the
    quotient keeps it where the quotient fits or the divisor is zero, the others wherever
    the divisor and a factor are not both zero. -/
theorem muldiv_contract_iff (ptr : PointerWidth) (t : CamInt) (x y z : t.Value ptr) :
    (ExactQuotient (t.toInt ptr) x y z (t.muldiv ptr x y z) ∧
        ExactDivision (t.toInt ptr) x y z (t.muldivmod ptr x y z)) ↔
      if t.casts then
        t.toInt ptr z = 0 ∨ ∃ v, t.toInt ptr v = quotient (t.toInt ptr) x y z
      else ¬ (t.toInt ptr z = 0 ∧ (t.toInt ptr x = 0 ∨ t.toInt ptr y = 0)) := by
  have via : ∀ (n : IntType), 0 < n.width → ∀ x y z : BitVec n.width,
      (ExactQuotient n.toInt x y z (viaMuldiv n n.wide x y z) ∧
        ExactDivision n.toInt x y z (viaMuldivmod n n.wide x y z)) ↔
      (n.toInt z = 0 ∨ ∃ v, n.toInt v = quotient n.toInt x y z) := by
    intro n hn x y z
    exact both_iff_of_fst (viaMuldiv_eq_fst hn x y z) (viaMuldivmod_iff hn x y z)
  cases t with
  | u8 => exact via ⟨false, 8⟩ (by decide) x y z
  | u16 => exact via ⟨false, 16⟩ (by decide) x y z
  | u32 => exact via ⟨false, 32⟩ (by decide) x y z
  | u64 => exact via ⟨false, 64⟩ (by decide) x y z
  | i8 => exact via ⟨true, 8⟩ (by decide) x y z
  | i16 => exact via ⟨true, 16⟩ (by decide) x y z
  | i32 => exact via ⟨true, 32⟩ (by decide) x y z
  | i64 => exact via ⟨true, 64⟩ (by decide) x y z
  | usize =>
    exact both_iff_of_fst (sizeMuldiv_eq_fst false ptr x y z) (sizeMuldivmod_iff false ptr x y z)
  | isize =>
    exact both_iff_of_fst (sizeMuldiv_eq_fst true ptr x y z) (sizeMuldivmod_iff true ptr x y z)
  | u128 => exact both_iff_of_fst (u128Muldiv_eq_fst x y z) u128Muldivmod_iff
  | i128 => exact both_iff_of_fst (i128Muldiv_eq_fst x y z) i128Muldivmod_iff
  | u256 => exact both_iff_of_fst (camMuldiv_eq_fst x y z) camMuldivmod_iff

/-- `255 * 255 / 1` is 1 at `u8`, and `0 * 5 / 0` is 0 at `u128`. -/
theorem muldiv_contract_fails :
    CamInt.muldiv .p64 .u8 255#8 255#8 1#8 = some 1#8 ∧
    CamInt.muldiv .p64 .u128 0#128 5#128 0#128 = some 0#128 ∧
    ¬ ∀ (t : CamInt) (x y z : t.Value .p64),
      ExactQuotient (t.toInt .p64) x y z (t.muldiv .p64 x y z) ∧
        ExactDivision (t.toInt .p64) x y z (t.muldivmod .p64 x y z) := by
  refine ⟨rfl, rfl, ?_⟩
  intro h
  have hzero := (h .u128 0#128 5#128 0#128).1
  exact hzero.1 rfl

end CambrianLang.Core
