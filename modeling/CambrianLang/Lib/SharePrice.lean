/-
  **The price of a share in a pool with virtual amounts.**

  A pool holds `T` assets against `S` shares and prices a share at
  `(T + 1) / (S + v)`.  Prices are compared without dividing: `NotBelow v S T S' T'`
  says that the price at `(S', T')` is at least the price at `(S, T)`.  Entering
  with shares rounded down and leaving with shares rounded up never lower it
  (`NotBelow.enter`, `NotBelow.leave`); what follows for whole histories is that
  every share is backed (`backed`) and that diluting somebody's deposit to
  nothing costs `v` times the deposit (`zeroing_cost`).
-/
import Mathlib.Algebra.Order.Floor.Div
import Mathlib.Tactic.Ring
import Mathlib.Tactic.Linarith

namespace CambrianLang.SharePrice

/-- The price at `(S', T')` is not below the price at `(S, T)`. -/
def NotBelow (v S T S' T' : Nat) : Prop := (T + 1) * (S' + v) ≤ (T' + 1) * (S + v)

variable {v S T S' T' S'' T'' : Nat}

namespace NotBelow

theorem refl (v S T : Nat) : NotBelow v S T S T := Nat.le_refl _

theorem trans (hv : 0 < v) (h₁ : NotBelow v S T S' T') (h₂ : NotBelow v S' T' S'' T'') :
    NotBelow v S T S'' T'' := by
  unfold NotBelow at *
  have hpos : 0 < S' + v := by omega
  apply Nat.le_of_mul_le_mul_right _ hpos
  calc (T + 1) * (S'' + v) * (S' + v) = (T + 1) * (S' + v) * (S'' + v) := by ring
    _ ≤ (T' + 1) * (S + v) * (S'' + v) := Nat.mul_le_mul_right _ h₁
    _ = (T' + 1) * (S'' + v) * (S + v) := by ring
    _ ≤ (T'' + 1) * (S' + v) * (S + v) := Nat.mul_le_mul_right _ h₂
    _ = (T'' + 1) * (S + v) * (S' + v) := by ring

/-- Assets that come in without a share raise the price. -/
theorem gift (h : T ≤ T') : NotBelow v S T S T' :=
  Nat.mul_le_mul_right _ (Nat.succ_le_succ h)

/-- Shares issued for no more than the assets that came in are worth. -/
theorem enter {shares got : Nat} (h : shares * (T + 1) ≤ got * (S + v)) :
    NotBelow v S T (S + shares) (T + got) := by
  unfold NotBelow
  calc (T + 1) * (S + shares + v) = (T + 1) * (S + v) + shares * (T + 1) := by ring
    _ ≤ (T + 1) * (S + v) + got * (S + v) := Nat.add_le_add_left h _
    _ = (T + got + 1) * (S + v) := by ring

/-- Shares burnt for no less than the assets that went out were worth. -/
theorem leave {shares paid : Nat} (h : paid * (S + shares + v) ≤ shares * (T + paid + 1)) :
    NotBelow v (S + shares) (T + paid) S T := by
  unfold NotBelow
  have hsum : (T + paid + 1) * (S + v) + shares * (T + paid + 1) =
      (T + 1) * (S + shares + v) + paid * (S + shares + v) := by ring
  omega

/-- Shares that were priced before the supply fell. -/
theorem enter_late {S₁ shares got : Nat} (hS : S₁ ≤ S)
    (h : shares * (T + 1) ≤ got * (S + v)) : NotBelow v S T (S₁ + shares) (T + got) := by
  have henter := NotBelow.enter h
  unfold NotBelow at henter ⊢
  exact (Nat.mul_le_mul_left _ (by omega)).trans henter

/-- Shares that were burnt and priced before the assets they were worth went out; what
    happened in between took nothing out. -/
theorem leave_late {shares paid S₂ T₂ : Nat} (h : paid * (S + shares + v) ≤ shares * (T + 1))
    (hT : T ≤ T₂ + paid) (hmid : NotBelow v S T S₂ (T₂ + paid)) :
    NotBelow v (S + shares) T S₂ T₂ := by
  unfold NotBelow at hmid ⊢
  have hgrown : shares * (T + 1) ≤ shares * (T₂ + paid + 1) := Nat.mul_le_mul_left _ (by omega)
  have hsum : (T₂ + paid + 1) * (S + v) + shares * (T₂ + paid + 1) =
      (T₂ + 1) * (S + shares + v) + paid * (S + shares + v) := by ring
  omega

end NotBelow

/-! ### Rounding -/

/-- Rounding up takes no less than the exact rational amount. -/
theorem ceil_bound (a n : Nat) {d : Nat} (hd : 0 < d) : a * n ≤ (a * n) ⌈/⌉ d * d := by
  rw [Nat.mul_comm _ d]
  exact le_smul_ceilDiv hd

/-- What shares short of the whole pool, virtual ones included, are worth is there to be paid. -/
theorem payout_le {shares : Nat} (h : shares < S + v) : shares * (T + 1) / (S + v) ≤ T := by
  apply Nat.le_of_lt_succ
  apply Nat.div_lt_of_lt_mul
  exact Nat.mul_lt_mul_of_pos_right h (Nat.succ_pos T)

/-- What shares are worth does not fall with the price. -/
theorem quote_le {b b' : Nat} (hv : 0 < v) (h : NotBelow v S T S' T') (hb : b ≤ b') :
    b * (T + 1) / (S + v) ≤ b' * (T' + 1) / (S' + v) := by
  rw [Nat.le_div_iff_mul_le (Nat.add_pos_right S' hv)]
  refine Nat.le_of_mul_le_mul_right ?_ (Nat.add_pos_right S hv)
  calc b * (T + 1) / (S + v) * (S' + v) * (S + v)
      = b * (T + 1) / (S + v) * (S + v) * (S' + v) := Nat.mul_right_comm ..
    _ ≤ b * (T + 1) * (S' + v) := Nat.mul_le_mul_right _ (Nat.div_mul_le_self _ _)
    _ = b * ((T + 1) * (S' + v)) := Nat.mul_assoc ..
    _ ≤ b' * ((T' + 1) * (S + v)) := Nat.mul_le_mul hb h
    _ = b' * (T' + 1) * (S + v) := (Nat.mul_assoc ..).symm

/-- What shares are worth, rounded down, takes no more than those shares, rounded up. -/
theorem ceilDiv_floor_le (shares a : Nat) {b : Nat} (hb : 0 < b) :
    (shares * b / a * a) ⌈/⌉ b ≤ shares := by
  apply (ceilDiv_le_iff_le_mul hb).mpr
  rw [Nat.mul_comm b shares]
  exact Nat.div_mul_le_self _ _

/-! ### Whole histories -/

/-- **From a pool without shares, every share is backed**: `v` shares an asset at most. -/
theorem backed (h : NotBelow v 0 T S' T') : S' ≤ v * T' := by
  unfold NotBelow at h
  have hge : S' + v ≤ (T + 1) * (S' + v) := Nat.le_mul_of_pos_left _ (Nat.succ_pos T)
  have hexp : (T' + 1) * (0 + v) = v * T' + v := by ring
  omega

/-- Shares that did not become fewer are held against assets that did not either. -/
theorem assets_le (hv : 0 < v) (h : NotBelow v S T S' T') (hS : S ≤ S') : T ≤ T' := by
  unfold NotBelow at h
  have hmul : (T + 1) * (S + v) ≤ (T' + 1) * (S + v) :=
    (Nat.mul_le_mul_left _ (by omega)).trans h
  have hle := Nat.le_of_mul_le_mul_right hmul (by omega)
  omega

/-- **Zeroing a deposit costs `v` times the deposit**: a deposit of `x` that was worth
    less than a share leaves the pool, whatever happens later, with at least
    `v · x` assets less one. -/
theorem zeroing_cost {x : Nat} (hv : 0 < v) (hzero : x * (S + v) < T + 1)
    (h : NotBelow v S (T + x) S' T') : v * x ≤ T' + 1 := by
  unfold NotBelow at h
  have hpos : 0 < S + v := by omega
  apply Nat.le_of_mul_le_mul_right _ hpos
  calc v * x * (S + v) = x * (S + v) * v := by ring
    _ ≤ (T + x + 1) * v := Nat.mul_le_mul_right _ (by omega)
    _ ≤ (T + x + 1) * (S' + v) := Nat.mul_le_mul_left _ (by omega)
    _ ≤ (T' + 1) * (S + v) := h

end CambrianLang.SharePrice
