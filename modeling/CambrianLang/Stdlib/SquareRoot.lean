/-
  **Integer square root** (`sqrt`, `stdlib/math.cam`).

  The descent starts at `y / 2 + 1`, at or above the root, and each of its 256 steps halves
  the distance, which is less than `2^256` to begin with.  At the root it stays, so the
  correction that follows has nothing to do.
-/
import CambrianLang.Stdlib.Math

namespace CambrianLang.Stdlib

open CheckedWord NewtonRoot Trapping

/-- The body of the `fold`. -/
def sqrtStep (y r : U256) : Exec U256 :=
  if r = 0#256 then .ok 1#256
  else do
    let rNext ← div (← add r (← div y r)) 2#256
    if r ≤ rNext then .ok r else .ok rNext

/-- `sqrt`. -/
def sqrt (y : U256) : Exec U256 := do
  let seed ← add (← div y 2#256) 1#256
  let rFinal ← (List.range 256).foldlM (fun r _ => sqrtStep y r) seed
  if y = 0#256 then .ok 0#256
  else if (← div y rFinal) < rFinal then sub rFinal 1#256
  else .ok rFinal

/-! ### One step -/

/-- The root of a word is half as long. -/
theorem sqrt_lt_two_pow (y : U256) : Nat.sqrt y.toNat < 2 ^ 128 := by
  have hy := y.isLt
  rw [Nat.sqrt_lt, ← Nat.pow_add]
  exact hy

/-- What holds between the steps: the root or more, and no more than the seed can be. -/
structure Descends (y r : U256) : Prop where
  above : Nat.sqrt y.toNat ≤ r.toNat
  below : r.toNat ≤ 2 ^ 255

/-- A step returns the Newton step, or stays when that is not smaller. -/
theorem sqrtStep_eq {y r : U256} (hy : 0 < y.toNat) (h : Descends y r) :
    ∃ r', sqrtStep y r = .ok r' ∧ r'.toNat = min r.toNat (newtonStep y.toNat r.toNat) := by
  have hroot : 0 < Nat.sqrt y.toNat := Nat.sqrt_pos.mpr hy
  have habove := h.above
  have hbelow := h.below
  have hr : 0 < r.toNat := by omega
  have hquot := div_le_sqrt_add_two hy h.above
  have hhalf := sqrt_lt_two_pow y
  have hdiv : (y / r).toNat = y.toNat / r.toNat := BitVec.toNat_udiv
  have hfits : r.toNat + (y / r).toNat < 2 ^ 256 := by omega
  have hsum : (r + y / r).toNat = r.toNat + y.toNat / r.toNat := by
    rw [BitVec.toNat_add_of_lt hfits, hdiv]
  have hnext : ((r + y / r) / 2#256).toNat = newtonStep y.toNat r.toNat := by
    rw [BitVec.toNat_udiv, hsum]
    rfl
  have hzero : r ≠ 0#256 := by
    rintro rfl
    exact absurd hr (by decide)
  rw [sqrtStep, if_neg hzero, div_of_pos hr, ok_bind, add_of_lt hfits, ok_bind,
    div_of_pos (by decide), ok_bind]
  split
  · next hle =>
    rw [BitVec.le_def, hnext] at hle
    exact ⟨r, rfl, (Nat.min_eq_left hle).symm⟩
  · next hlt =>
    rw [BitVec.le_def, hnext, Nat.not_le] at hlt
    exact ⟨_, rfl, by rw [hnext, Nat.min_eq_right (Nat.le_of_lt hlt)]⟩

/-- **A step keeps above the root and halves the distance to it.** -/
theorem sqrtStep_descends {y r : U256} (hy : 0 < y.toNat) (h : Descends y r) :
    ∃ r', sqrtStep y r = .ok r' ∧ Descends y r' ∧
      r'.toNat - Nat.sqrt y.toNat ≤ (r.toNat - Nat.sqrt y.toNat) / 2 := by
  obtain ⟨r', hstep, hval⟩ := sqrtStep_eq hy h
  have hroot : 0 < Nat.sqrt y.toNat := Nat.sqrt_pos.mpr hy
  have habove := h.above
  have hbelow := h.below
  have hnewton : Nat.sqrt y.toNat ≤ newtonStep y.toNat r.toNat := sqrt_le_newtonStep (by omega)
  refine ⟨r', hstep, ⟨by omega, by omega⟩, ?_⟩
  rcases Nat.lt_or_eq_of_le habove with hlt | heq
  · have hhalf := newtonStep_sub_le hlt
    omega
  · omega

/-! ### The descent -/

theorem descent {y r : U256} (hy : 0 < y.toNat) (h : Descends y r) (steps : List Nat) :
    ∃ r', steps.foldlM (fun r _ => sqrtStep y r) r = .ok r' ∧ Descends y r' ∧
      r'.toNat - Nat.sqrt y.toNat ≤ (r.toNat - Nat.sqrt y.toNat) / 2 ^ steps.length := by
  induction steps generalizing r with
  | nil => exact ⟨r, rfl, h, by rw [List.length_nil, Nat.pow_zero, Nat.div_one]⟩
  | cons i steps ih =>
    obtain ⟨t, hstep, ht, hhalf⟩ := sqrtStep_descends hy h
    obtain ⟨r', hrun, hr', hdist⟩ := ih ht
    refine ⟨r', by rw [List.foldlM_cons, hstep, ok_bind, hrun], hr', hdist.trans ?_⟩
    calc (t.toNat - Nat.sqrt y.toNat) / 2 ^ steps.length
        ≤ (r.toNat - Nat.sqrt y.toNat) / 2 / 2 ^ steps.length := Nat.div_le_div_right hhalf
      _ = (r.toNat - Nat.sqrt y.toNat) / 2 ^ (i :: steps).length := by
        rw [Nat.div_div_eq_div_mul, List.length_cons, Nat.pow_succ']

/-- From a radicand of zero the descent goes back and forth between 1 and 0. -/
theorem descent_zero (steps : List Nat) {r : U256} (hr : r = 0#256 ∨ r = 1#256) :
    ∃ r', steps.foldlM (fun r _ => sqrtStep 0#256 r) r = .ok r' := by
  induction steps generalizing r with
  | nil => exact ⟨r, rfl⟩
  | cons i steps ih =>
    rcases hr with rfl | rfl
    · have hstep : sqrtStep 0#256 0#256 = .ok 1#256 := by decide
      rw [List.foldlM_cons, hstep, ok_bind]
      exact ih (Or.inr rfl)
    · have hstep : sqrtStep 0#256 1#256 = .ok 0#256 := by decide
      rw [List.foldlM_cons, hstep, ok_bind]
      exact ih (Or.inl rfl)

/-- The seed. -/
theorem seed_eq (y : U256) : ∃ seed, add (y / 2#256) 1#256 = .ok seed ∧ Descends y seed ∧
    seed.toNat = y.toNat / 2 + 1 := by
  have hy := y.isLt
  have hhalf : (y / 2#256).toNat = y.toNat / 2 := BitVec.toNat_udiv
  have hone : (1#256).toNat = 1 := rfl
  have hfits : (y / 2#256).toNat + (1#256).toNat < 2 ^ 256 := by omega
  have hval : (y / 2#256 + 1#256).toNat = y.toNat / 2 + 1 := by
    rw [BitVec.toNat_add_of_lt hfits, hhalf, hone]
  refine ⟨_, add_of_lt hfits, ⟨?_, ?_⟩, hval⟩
  · rw [hval]
    exact sqrt_le_half y.toNat
  · rw [hval]
    omega

/-! ### The root -/

/-- `sqrt` is the root of the number, and nothing on the way to it traps. -/
theorem sqrt_eq (y : U256) : ∃ r, sqrt y = .ok r ∧ r.toNat = Nat.sqrt y.toNat := by
  have htwo : 0 < (2#256).toNat := by decide
  obtain ⟨seed, hseed, hdesc, hval⟩ := seed_eq y
  by_cases hy : y = 0#256
  · subst hy
    obtain ⟨r', hrun⟩ := descent_zero (List.range 256) (r := 1#256) (Or.inr rfl)
    have hone : seed = 1#256 := BitVec.eq_of_toNat_eq hval
    rw [hone] at hseed
    refine ⟨0#256, ?_, by decide⟩
    rw [sqrt, div_of_pos htwo, ok_bind, hseed, ok_bind, hrun, ok_bind, if_pos rfl]
  · have hpos : 0 < y.toNat := toNat_pos hy
    obtain ⟨r', hrun, hr', hdist⟩ := descent hpos hdesc (List.range 256)
    -- the distance is less than `2^256`, so nothing is left of it
    have hroot : r'.toNat = Nat.sqrt y.toNat := by
      have habove := hr'.above
      have hlt := seed.isLt
      rw [List.length_range, Nat.div_eq_of_lt (by omega)] at hdist
      omega
    have hrpos : 0 < r'.toNat := by
      rw [hroot]
      exact Nat.sqrt_pos.mpr hpos
    have hdone : ¬ y / r' < r' := by
      rw [BitVec.lt_def, BitVec.toNat_udiv, Nat.not_lt, Nat.le_div_iff_mul_le hrpos, hroot]
      exact Nat.sqrt_le y.toNat
    refine ⟨r', ?_, hroot⟩
    rw [sqrt, div_of_pos htwo, ok_bind, hseed, ok_bind, hrun, ok_bind, if_neg hy,
      div_of_pos hrpos, ok_bind, if_neg hdone]

/-- **`sqrt` is the exact integer square root**: no step traps, and the result is the only
    number whose square is at most the radicand and whose successor's is more. -/
theorem sqrt_exact (y : U256) :
    ∃ r, sqrt y = .ok r ∧ r.toNat * r.toNat ≤ y.toNat ∧
      y.toNat < (r.toNat + 1) * (r.toNat + 1) ∧
      ∀ n : Nat, n * n ≤ y.toNat → y.toNat < (n + 1) * (n + 1) → n = r.toNat := by
  obtain ⟨r, hrun, hroot⟩ := sqrt_eq y
  refine ⟨r, hrun, ?_, ?_, ?_⟩
  · rw [hroot]
    exact Nat.sqrt_le y.toNat
  · rw [hroot]
    exact Nat.lt_succ_sqrt y.toNat
  · intro n hle hlt
    rw [hroot]
    exact Nat.eq_sqrt.mpr ⟨hle, hlt⟩

end CambrianLang.Stdlib
