/-
  **`cam_divc`, `cam_divr`, `cam_modpow2` and `cam_pow` of the Rust core.**

  The generic functions are instantiated at `U256`.  `cam_divc` and `cam_divr`
  avoid the naive `x + y - 1` and `x + y / 2`, and `cam_pow` squares the base only
  while another exponent bit follows; the theorems say that this makes each of
  them exact on the whole range, with a panic only on a zero divisor or on a
  result that does not fit.

  `camPow` gives its loop one round for each bit of a word.  As a run the loop takes
  as many rounds as it takes: it ends for every base and exponent, and it ends in a
  panic only when the power does not fit.
-/
import CambrianLang.Core.Wide

namespace CambrianLang.Core

open CheckedWord U256 Relation

/-- `cam_divc` at `U256`. -/
def camDivc (x y : U256) : Option U256 :=
  if !zero.blt y then none
  else if x.isZero then some zero
  else do
    let t ← x.sub one
    let q ← t.div y
    q.add one

/-- `cam_divr` at `U256`. -/
def camDivr (x y : U256) : Option U256 :=
  if !zero.blt y then none
  else do
    let q ← x.div y
    let r ← x.rem y
    let half ← y.div two
    let halfCeil ← y.sub half
    if !r.blt halfCeil then q.add one else return q

/-- `cam_modpow2`, which the source only has for `u128`. -/
def camModpow2 (x : U128) (n : Nat) : Option U128 :=
  if 128 ≤ n then some x
  else do
    let mask ← csub (1#128 <<< n) 1#128
    return x &&& mask

/-- The guarded updates `if c { x = x * y; }` of `cam_pow`. -/
def mulIf (c : Bool) (x y : U256) : Option U256 := if c then x.mul y else some x

/-- The `while e != zero` loop of `cam_pow`; the exponent has at most `fuel` bits. -/
def camPowLoop : Nat → U256 → U256 → U256 → Option U256
  | 0, result, _, _ => some result
  | fuel + 1, result, b, e =>
      if e.isZero then some result
      else do
        let odd ← e.rem two
        let result ← mulIf (!odd.isZero) result b
        let e ← e.div two
        let b ← mulIf (!e.isZero) b b
        camPowLoop fuel result b e

/-- `cam_pow` at `U256`. -/
def camPow (base exp : U256) : Option U256 := camPowLoop 256 one base exp

/-! ### Rounding division -/

/-- The two formulas for the ceiling. -/
theorem sub_one_div_add_one {x y : Nat} (hx : x ≠ 0) (hy : 0 < y) :
    (x - 1) / y + 1 = (x + y - 1) / y := by
  have hsplit : x + y - 1 = x - 1 + y := by omega
  rw [hsplit, Nat.add_div_right _ hy]

theorem camDivc_zero (x : U256) : camDivc x zero = none := by
  rw [camDivc, blt_eq]
  simp

/-- **`cam_divc` is the exact ceiling.** -/
theorem camDivc_eq {x y : U256} (hy : y.toNat ≠ 0) :
    camDivc x y = checked ((x.toNat + y.toNat - 1) / y.toNat) := by
  have hpos : 0 < y.toNat := Nat.pos_of_ne_zero hy
  unfold camDivc
  rw [blt_eq, toNat_zero, if_neg (by simp [hpos])]
  by_cases hx : x.toNat = 0
  · have hceil : (x.toNat + y.toNat - 1) / y.toNat = 0 := by
      rw [hx]
      exact Nat.div_eq_of_lt (by omega)
    rw [if_pos ((isZero_iff x).mpr hx), hceil]
    exact (checked_eq_some.mpr toNat_zero).symm
  · have hone := toNat_one
    obtain ⟨t, ht, htv⟩ := sub_of_le (a := x) (b := one) (by omega)
    obtain ⟨q, hq, hqv⟩ := div_eq (a := t) hy
    rw [if_neg (by simp [isZero_iff, hx]), ht, Option.bind_eq_bind, Option.bind_some, hq,
      Option.bind_some, add_eq, hqv, htv, hone, sub_one_div_add_one hx hpos]

/-- A remainder in the upper half rounds the quotient up, one in the lower half
    does not. -/
theorem add_half_div {x y : Nat} (hy : 0 < y) :
    (x + y / 2) / y = if y - y / 2 ≤ x % y then x / y + 1 else x / y := by
  have hmod := Nat.mod_lt x hy
  have hsplit : x + y / 2 = x % y + y / 2 + y * (x / y) := by
    have := Nat.mod_add_div x y
    omega
  rw [hsplit, Nat.add_mul_div_left _ _ hy]
  by_cases h : y - y / 2 ≤ x % y
  · have hone : (x % y + y / 2) / y = 1 := by
      rw [Nat.div_eq_iff hy]
      omega
    rw [if_pos h, hone, Nat.add_comm]
  · rw [if_neg h, Nat.div_eq_of_lt (by omega), Nat.zero_add]

/-- **`cam_divr` rounds to nearest**, halves up. -/
theorem camDivr_eq {x y : U256} (hy : y.toNat ≠ 0) :
    camDivr x y = checked ((x.toNat + y.toNat / 2) / y.toNat) := by
  have hpos : 0 < y.toNat := Nat.pos_of_ne_zero hy
  have htwo : two.toNat ≠ 0 := by rw [toNat_two]; omega
  unfold camDivr
  rw [blt_eq, toNat_zero, if_neg (by simp [hpos])]
  obtain ⟨q, hq, hqv⟩ := div_eq (a := x) hy
  obtain ⟨r, hr, hrv⟩ := rem_eq (a := x) hy
  obtain ⟨half, hhalf, hhalfv⟩ := div_eq (a := y) htwo
  rw [toNat_two] at hhalfv
  obtain ⟨halfCeil, hceil, hceilv⟩ := sub_of_le (a := y) (b := half) (by omega)
  rw [hhalfv] at hceilv
  simp only [hq, hr, hhalf, hceil, Option.bind_eq_bind, Option.bind_some]
  rw [blt_eq, hrv, hceilv, add_half_div hpos]
  by_cases h : y.toNat - y.toNat / 2 ≤ x.toNat % y.toNat
  · rw [if_pos (by simpa using h), if_pos h, add_eq, hqv, toNat_one]
  · rw [if_neg (by simpa using h), if_neg h]
    exact (checked_eq_some.mpr hqv).symm

theorem camDivr_zero (x : U256) : camDivr x zero = none := by
  rw [camDivr, blt_eq]
  simp

/-! ### Powers -/

theorem mulIf_eq (c : Bool) (x y : U256) :
    mulIf c x y = checked (if c then x.toNat * y.toNat else x.toNat) := by
  cases c with
  | true => simp only [mulIf, if_true, mul_eq]
  | false => simp only [mulIf, Bool.false_eq_true, if_false, checked_toNat]

/-- The loop computes `result · b ^ e`, and traps exactly when that overflows:
    the guarded squaring is only done when the result contains the square. -/
theorem camPowLoop_eq : ∀ fuel (result b e : U256), e.toNat.size ≤ fuel →
    (b.toNat = 0 ∨ 0 < result.toNat) →
    camPowLoop fuel result b e = checked (result.toNat * b.toNat ^ e.toNat) := by
  intro fuel
  induction fuel with
  | zero =>
    intro result b e hsize _
    have he : e.toNat = 0 := Nat.size_eq_zero.mp (by omega)
    rw [he, Nat.pow_zero, Nat.mul_one]
    exact (checked_toNat _).symm
  | succ fuel ih =>
    intro result b e hsize hpos
    unfold camPowLoop
    by_cases he : e.toNat = 0
    · rw [if_pos ((isZero_iff e).mpr he), he, Nat.pow_zero, Nat.mul_one]
      exact (checked_toNat _).symm
    have htwo : two.toNat ≠ 0 := by rw [toNat_two]; omega
    obtain ⟨odd, hodd, hoddv⟩ := rem_eq (a := e) htwo
    obtain ⟨e', he', hev⟩ := div_eq (a := e) htwo
    rw [toNat_two] at hoddv hev
    have hsize' : e'.toNat.size ≤ fuel := by
      have h := LongArithmetic.size_half he
      rw [hev]
      omega
    rw [if_neg (by simp [isZero_iff, he])]
    have hcond : (!odd.isZero) = decide (e.toNat % 2 ≠ 0) := by
      rw [Bool.eq_iff_iff, decide_eq_true_eq, ← hoddv, ne_eq, ← isZero_iff]
      simp
    have hlastCond : (!e'.isZero) = decide (e.toNat / 2 ≠ 0) := by
      rw [Bool.eq_iff_iff, decide_eq_true_eq, ← hev, ne_eq, ← isZero_iff]
      simp
    simp only [hodd, he', Option.bind_eq_bind, Option.bind_some]
    rw [hcond, hlastCond, mulIf_eq, LongArithmetic.mul_pow_round]
    simp only [mulIf_eq, decide_eq_true_eq]
    have hflip : (if e.toNat % 2 ≠ 0 then result.toNat * b.toNat else result.toNat) =
        if e.toNat % 2 = 0 then result.toNat else result.toNat * b.toNat := by
      split <;> simp_all
    rw [hflip]
    generalize hr : (if e.toNat % 2 = 0 then result.toNat else result.toNat * b.toNat) = acc
    have haccPos : b.toNat = 0 ∨ 0 < acc := by
      rcases hpos with h | h
      · exact Or.inl h
      · rcases Nat.eq_zero_or_pos b.toNat with h0 | hb
        · exact Or.inl h0
        · refine Or.inr ?_
          rw [← hr]
          split
          · exact h
          · exact Nat.mul_pos h hb
    by_cases hfit : acc < 2 ^ 256
    · obtain ⟨accU, haccU, haccv⟩ := exists_checked hfit
      rw [haccU, Option.bind_some]
      by_cases hlast : e.toNat / 2 = 0
      · rw [if_neg (not_not.mpr hlast), checked_toNat b, Option.bind_some,
          ih accU b e' hsize' (by rw [haccv]; exact haccPos), haccv, hev, hlast, Nat.pow_zero, Nat.pow_zero]
      · rw [if_pos hlast]
        by_cases hsq : b.toNat * b.toNat < 2 ^ 256
        · obtain ⟨b', hb', hbv⟩ := exists_checked hsq
          have hbPos : b'.toNat = 0 ∨ 0 < accU.toNat := by
            rw [haccv, hbv]
            exact haccPos.imp (fun h => by rw [h]) id
          rw [hb', Option.bind_some, ih accU b' e' hsize' hbPos, haccv, hbv, hev]
        · -- the square is a factor of the result
          have hbne : b.toNat ≠ 0 := fun h => hsq (by rw [h]; omega)
          have hacc1 : 0 < acc := haccPos.resolve_left hbne
          have hle : b.toNat * b.toNat ≤ acc * (b.toNat * b.toNat) ^ (e.toNat / 2) :=
            (LongArithmetic.self_le_pow hlast).trans (Nat.le_mul_of_pos_left _ hacc1)
          rw [checked_of_le (Nat.not_lt.mp hsq), checked_of_le ((Nat.not_lt.mp hsq).trans hle),
            Option.bind_none]
    · have hbne : b.toNat ≠ 0 := by
        intro h
        have hres := result.toNat_lt
        rw [h, Nat.mul_zero] at hr
        split at hr <;> omega
      have hle : acc ≤ acc * (b.toNat * b.toNat) ^ (e.toNat / 2) :=
        Nat.le_mul_of_pos_right _ (Nat.pow_pos (Nat.mul_pos (by omega) (by omega)))
      rw [checked_of_le (Nat.not_lt.mp hfit), checked_of_le ((Nat.not_lt.mp hfit).trans hle),
        Option.bind_none]

/-- **`cam_pow` is exact**: it panics only when the power does not fit. -/
theorem camPow_eq (base exp : U256) : camPow base exp = checked (base.toNat ^ exp.toNat) := by
  rw [camPow, camPowLoop_eq 256 one base exp (Nat.size_le.mpr exp.toNat_lt)
    (Or.inr (by rw [toNat_one]; omega)), toNat_one, Nat.one_mul]

/-! ### The loop of `cam_pow` as a run -/

/-- The variables of the `while` loop. -/
structure PowState where
  result : U256
  b : U256
  e : U256

/-- The body of the loop. -/
def powRound (s : PowState) : Option PowState := do
  let odd ← s.e.rem two
  let result ← mulIf (!odd.isZero) s.result s.b
  let e ← s.e.div two
  let b ← mulIf (!e.isZero) s.b s.b
  return ⟨result, b, e⟩

/-- A run of the loop, with its result or a panic. -/
inductive PowRuns : PowState → Option U256 → Prop
  | done {s} (h : s.e.isZero = true) : PowRuns s (some s.result)
  | panics {s} (h : s.e.isZero = false) (hround : powRound s = none) : PowRuns s none
  | next {s t r} (h : s.e.isZero = false) (hround : powRound s = some t) (hrun : PowRuns t r) :
      PowRuns s r

/-- One round from `s` to `t`. -/
def PowStep (s t : PowState) : Prop := s.e.isZero = false ∧ powRound s = some t

theorem PowRuns.unique {s : PowState} {r r' : Option U256} (h : PowRuns s r) (h' : PowRuns s r') :
    r = r' := by
  induction h with
  | done hzero =>
    cases h' with
    | done => rfl
    | panics hne => cases hzero.symm.trans hne
    | next hne => cases hzero.symm.trans hne
  | panics hne hround =>
    cases h' with
    | done hzero => cases hzero.symm.trans hne
    | panics => rfl
    | next _ hround' => cases hround.symm.trans hround'
  | next hne hround _ ih =>
    cases h' with
    | done hzero => cases hzero.symm.trans hne
    | panics _ hround' => cases hround.symm.trans hround'
    | next _ hround' hrun' =>
      cases hround.symm.trans hround'
      exact ih hrun'

/-- A run goes through every state that its rounds reach. -/
theorem PowRuns.of_steps {s t : PowState} {r : Option U256} (h : ReflTransGen PowStep s t)
    (hrun : PowRuns t r) : PowRuns s r := by
  induction h using ReflTransGen.head_induction_on with
  | refl => exact hrun
  | head hstep _ ih => exact .next hstep.1 hstep.2 ih

/-- A round halves the exponent. -/
theorem powRound_size {s t : PowState} (hne : s.e.isZero = false) (h : powRound s = some t) :
    t.e.toNat.size < s.e.toNat.size := by
  have he : s.e.toNat ≠ 0 := fun hzero => by
    rw [(isZero_iff s.e).mpr hzero] at hne
    cases hne
  obtain ⟨e, hdiv, hval⟩ := div_eq (a := s.e) (b := two) (by rw [toNat_two]; omega)
  simp only [powRound, Option.bind_eq_bind, Option.bind_eq_some_iff, Option.pure_def] at h
  obtain ⟨odd, -, result, -, e', he', b, -, hmake⟩ := h
  cases hdiv.symm.trans he'
  cases hmake
  have hhalf := LongArithmetic.size_half he
  rw [hval, toNat_two]
  omega

/-- **The run ends**, with what the bounded loop computes. -/
theorem powRuns_loop (fuel : ℕ) (s : PowState) (hsize : s.e.toNat.size ≤ fuel) :
    PowRuns s (camPowLoop fuel s.result s.b s.e) := by
  induction fuel generalizing s with
  | zero =>
    have he : s.e.toNat = 0 := Nat.size_eq_zero.mp (by omega)
    exact .done ((isZero_iff s.e).mpr he)
  | succ fuel ih =>
    by_cases hzero : s.e.isZero = true
    · rw [camPowLoop, if_pos hzero]
      exact .done hzero
    · have hne : s.e.isZero = false := Bool.eq_false_iff.mpr hzero
      have hloop : camPowLoop (fuel + 1) s.result s.b s.e =
          (powRound s).bind fun t => camPowLoop fuel t.result t.b t.e := by
        rw [camPowLoop, if_neg hzero, powRound]
        simp only [Option.bind_eq_bind, Option.bind_assoc, Option.pure_def, Option.bind_some]
      rw [hloop]
      cases hround : powRound s with
      | none => exact .panics hne hround
      | some t =>
        have hless := powRound_size hne hround
        exact .next hne hround (ih t (by omega))

/-- **`cam_pow` ends and is exact**: every run ends in the same way, with the power when it fits
    and in a panic when it does not, and no round of a run to a power that fits panics. -/
theorem pow_exact (base exp : U256) :
    (∀ r, PowRuns ⟨one, base, exp⟩ r ↔ r = camPow base exp) ∧
      (base.toNat ^ exp.toNat < 2 ^ 256 →
        (∃ v, camPow base exp = some v ∧ v.toNat = base.toNat ^ exp.toNat) ∧
          ∀ s, ReflTransGen PowStep ⟨one, base, exp⟩ s → s.e.isZero = false →
            ∃ t, powRound s = some t) ∧
      (2 ^ 256 ≤ base.toNat ^ exp.toNat → camPow base exp = none) := by
  have hrun : PowRuns ⟨one, base, exp⟩ (camPow base exp) :=
    powRuns_loop 256 ⟨one, base, exp⟩ (Nat.size_le.mpr exp.toNat_lt)
  refine ⟨?_, ?_, ?_⟩
  · intro r
    constructor
    · exact fun h => h.unique hrun
    · rintro rfl
      exact hrun
  · intro hfits
    obtain ⟨v, hv, hval⟩ := exists_checked hfits
    have hpow : camPow base exp = some v := by rw [camPow_eq, hv]
    refine ⟨⟨v, hpow, hval⟩, ?_⟩
    intro s hreach hne
    cases hround : powRound s with
    | some t => exact ⟨t, rfl⟩
    | none =>
      -- the run would end here
      have hpanic : PowRuns ⟨one, base, exp⟩ none := .of_steps hreach (.panics hne hround)
      cases hpow.symm.trans (hrun.unique hpanic)
  · intro hover
    rw [camPow_eq, checked_of_le hover]

example : camPow zero zero = some one := by decide

end CambrianLang.Core
