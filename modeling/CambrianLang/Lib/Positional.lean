/-
  **Positional notation, most significant digit first.**

  A reader that meets the most significant digit first keeps `acc * b + d`; the
  number it ends with is the little-endian value of the reversed digits.  Reading
  the same digits in the other direction gives the same number exactly for a
  palindrome.
-/
import Mathlib.Data.Nat.Digits.Defs

namespace CambrianLang.Positional

/-- Horner's rule from an accumulator. -/
def horner (b : Nat) : Nat → List Nat → Nat
  | acc, [] => acc
  | acc, d :: ds => horner b (acc * b + d) ds

/-- The value of digits written most significant first. -/
def valueOf (b : Nat) (ds : List Nat) : Nat := horner b 0 ds

@[simp] theorem horner_nil (b acc : Nat) : horner b acc [] = acc := rfl

@[simp] theorem horner_cons (b acc d : Nat) (ds : List Nat) :
    horner b acc (d :: ds) = horner b (acc * b + d) ds := rfl

theorem horner_append (b acc : Nat) (ds ds' : List Nat) :
    horner b acc (ds ++ ds') = horner b (horner b acc ds) ds' := by
  induction ds generalizing acc with
  | nil => rfl
  | cons d ds ih => exact ih (acc * b + d)

theorem horner_zeros (b k : Nat) (ds : List Nat) :
    horner b 0 (List.replicate k 0 ++ ds) = horner b 0 ds := by
  induction k with
  | zero => rfl
  | succ k ih =>
    rw [List.replicate_succ, List.cons_append, horner_cons, Nat.zero_mul]
    exact ih

theorem horner_eq (b acc : Nat) (ds : List Nat) :
    horner b acc ds = acc * b ^ ds.length + Nat.ofDigits b ds.reverse := by
  induction ds generalizing acc with
  | nil => simp only [horner_nil, List.length_nil, Nat.pow_zero, Nat.mul_one, List.reverse_nil,
      Nat.ofDigits_nil, Nat.add_zero]
  | cons d ds ih =>
    rw [horner_cons, ih, List.reverse_cons, Nat.ofDigits_append, Nat.ofDigits_singleton,
      List.length_reverse, List.length_cons, Nat.pow_succ]
    ring

/-- The value is the little-endian value of the reversed digits. -/
theorem valueOf_eq (b : Nat) (ds : List Nat) : valueOf b ds = Nat.ofDigits b ds.reverse := by
  rw [valueOf, horner_eq, Nat.zero_mul, Nat.zero_add]

/-- The accumulator only grows. -/
theorem le_horner {b : Nat} (hb : 0 < b) (acc : Nat) (ds : List Nat) : acc ≤ horner b acc ds := by
  rw [horner_eq]
  exact (Nat.le_mul_of_pos_right acc (Nat.pow_pos hb)).trans (Nat.le_add_right _ _)

/-- Digits read in both directions give one number exactly when they are a
    palindrome. -/
theorem ofDigits_eq_valueOf_iff {b : Nat} (hb : 1 < b) {ds : List Nat} (hds : ∀ d ∈ ds, d < b) :
    Nat.ofDigits b ds = valueOf b ds ↔ ds.reverse = ds := by
  rw [valueOf_eq]
  constructor
  · intro h
    exact (Nat.ofDigits_inj_of_len_eq hb (List.length_reverse).symm hds
      (fun d hd => hds d (List.mem_reverse.mp hd)) h).symm
  · intro h
    rw [h]

end CambrianLang.Positional
