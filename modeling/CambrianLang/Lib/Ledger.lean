/-
  **Account ledgers.**

  A ledger keeps a balance for every account of a finite set and, beside it, a
  supply that claims to be their sum.  `total` and `holders` are the two
  aggregates; an `Effect` is what a transaction can do to a ledger, with the two
  checked computations it makes, one for the supply and one for the balances.
  An effect keeps the supply equal to the sum (`Effect.conserved`), and the
  supply being the sum is what makes the credit of an effect fit
  (`Effect.balances_isOk`).
-/
import CambrianLang.Lib.Trapping
import Mathlib.Algebra.BigOperators.Fin
import Mathlib.Algebra.Order.BigOperators.Group.Finset

namespace CambrianLang.Ledger

open Trapping

variable {A : Type} [Fintype A] [DecidableEq A] {w : Nat}

/-! ### Aggregates -/

/-- The exact sum of the balances. -/
def total (bal : A → BitVec w) : Nat := ∑ a, (bal a).toNat

/-- The accounts that hold something. -/
def holders (bal : A → BitVec w) : Nat := (Finset.univ.filter fun a => bal a ≠ 0#w).card

/-- Writing one balance changes the sum by the new balance less the old. -/
theorem total_update (bal : A → BitVec w) (x : A) (v : BitVec w) :
    total (Function.update bal x v) + (bal x).toNat = total bal + v.toNat := by
  have hrest : ∀ a ∈ Finset.univ.erase x, (Function.update bal x v a).toNat = (bal a).toNat := by
    intro a ha
    rw [Function.update_of_ne (Finset.ne_of_mem_erase ha)]
  unfold total
  rw [← Finset.add_sum_erase _ _ (Finset.mem_univ x), ← Finset.add_sum_erase Finset.univ
    (fun a => (bal a).toNat) (Finset.mem_univ x), Finset.sum_congr rfl hrest,
    Function.update_self]
  omega

omit [DecidableEq A] in
/-- A balance is part of the sum, -/
theorem toNat_le_total (bal : A → BitVec w) (x : A) : (bal x).toNat ≤ total bal :=
  Finset.single_le_sum (f := fun a => (bal a).toNat) (fun _ _ => Nat.zero_le _) (Finset.mem_univ x)

/-- and so are two of different accounts. -/
theorem add_le_total (bal : A → BitVec w) {x y : A} (h : x ≠ y) :
    (bal x).toNat + (bal y).toNat ≤ total bal := by
  -- empty the account `x`: the sum falls by its balance and still covers `y`
  have hupd := total_update bal x 0#w
  have hy := toNat_le_total (Function.update bal x 0#w) y
  rw [Function.update_of_ne (Ne.symm h)] at hy
  simp only [BitVec.toNat_ofNat, Nat.zero_mod, Nat.add_zero] at hupd
  omega

omit [DecidableEq A] in
theorem total_zero : total (fun _ : A => 0#w) = 0 := by simp [total]

/-- What an account adds to the holder count. -/
def counts (v : BitVec w) : Nat := if v = 0#w then 0 else 1

omit [DecidableEq A] in
theorem holders_eq_sum (bal : A → BitVec w) : holders bal = ∑ a, counts (bal a) := by
  rw [holders, Finset.card_filter]
  apply Finset.sum_congr rfl
  intro a _
  unfold counts
  split <;> simp_all

/-- Writing one balance changes the holder count by what the balances count for. -/
theorem holders_update (bal : A → BitVec w) (x : A) (v : BitVec w) :
    holders (Function.update bal x v) + counts (bal x) = holders bal + counts v := by
  have hrest : ∀ a ∈ Finset.univ.erase x, counts (Function.update bal x v a) = counts (bal a) := by
    intro a ha
    rw [Function.update_of_ne (Finset.ne_of_mem_erase ha)]
  rw [holders_eq_sum, holders_eq_sum, ← Finset.add_sum_erase _ _ (Finset.mem_univ x),
    ← Finset.add_sum_erase Finset.univ (fun a => counts (bal a)) (Finset.mem_univ x),
    Finset.sum_congr rfl hrest, Function.update_self]
  omega

omit [DecidableEq A] in
theorem holders_zero : holders (fun _ : A => 0#w) = 0 := by simp [holders]

omit [DecidableEq A] in
/-- No balance fell, so neither did the sum. -/
theorem total_le_total {bal bal' : A → BitVec w} (h : ∀ x, (bal x).toNat ≤ (bal' x).toNat) :
    total bal ≤ total bal' :=
  Finset.sum_le_sum fun x _ => h x

/-! ### Writes -/

variable {bal bal' : A → BitVec w} {src dst x : A} {amount : BitVec w}

/-- Take `amount` from `src` and give it to `dst`, unless they are one account:
    both balances are read before either is written. -/
def move (bal : A → BitVec w) (src dst : A) (amount : BitVec w) : Exec (A → BitVec w) :=
  if dst = src then .ok bal
  else do
    let f ← sub (bal src) amount
    let t ← add (bal dst) amount
    return Function.update (Function.update bal src f) dst t

def credit (bal : A → BitVec w) (dst : A) (amount : BitVec w) : Exec (A → BitVec w) := do
  let t ← add (bal dst) amount
  return Function.update bal dst t

def debit (bal : A → BitVec w) (src : A) (amount : BitVec w) : Exec (A → BitVec w) := do
  let f ← sub (bal src) amount
  return Function.update bal src f

omit [Fintype A] in
theorem move_self : move bal src src amount = .ok bal := if_pos rfl

omit [Fintype A] in
theorem credit_eq_ok : credit bal dst amount = .ok bal' ↔
    ∃ t, t.toNat = (bal dst).toNat + amount.toNat ∧ bal' = Function.update bal dst t := by
  simp only [credit, bind_eq_ok, add_eq_ok, pure_eq_ok, Except.ok.injEq, eq_comm (a := bal')]

omit [Fintype A] in
theorem debit_eq_ok : debit bal src amount = .ok bal' ↔
    ∃ f, f.toNat + amount.toNat = (bal src).toNat ∧ bal' = Function.update bal src f := by
  simp only [debit, bind_eq_ok, sub_eq_ok, pure_eq_ok, Except.ok.injEq, eq_comm (a := bal')]

omit [Fintype A] in
theorem move_eq_ok (h : dst ≠ src) : move bal src dst amount = .ok bal' ↔
    ∃ f t, f.toNat + amount.toNat = (bal src).toNat ∧ t.toNat = (bal dst).toNat + amount.toNat ∧
      bal' = Function.update (Function.update bal src f) dst t := by
  rw [move, if_neg h]
  simp only [bind_eq_ok, sub_eq_ok, add_eq_ok, pure_eq_ok, Except.ok.injEq, exists_and_left,
    eq_comm (a := bal')]

omit [Fintype A] in
/-- A move takes at most its amount, and from its source only. -/
theorem le_of_move (h : move bal src dst amount = .ok bal') (x : A) :
    (bal x).toNat ≤ (bal' x).toNat + if x = src then amount.toNat else 0 := by
  by_cases hne : dst = src
  · subst hne
    rw [move_self] at h
    cases h
    omega
  · obtain ⟨f, t, hf, ht, rfl⟩ := (move_eq_ok hne).mp h
    by_cases hx : x = dst
    · subst hx
      rw [Function.update_self]
      omega
    · rw [Function.update_of_ne hx]
      by_cases hs : x = src
      · subst hs
        rw [Function.update_self, if_pos rfl]
        omega
      · rw [Function.update_of_ne hs]
        omega

omit [Fintype A] in
theorem le_of_debit (h : debit bal src amount = .ok bal') (x : A) :
    (bal x).toNat ≤ (bal' x).toNat + if x = src then amount.toNat else 0 := by
  obtain ⟨f, hf, rfl⟩ := debit_eq_ok.mp h
  by_cases hs : x = src
  · subst hs
    rw [Function.update_self, if_pos rfl]
    omega
  · rw [Function.update_of_ne hs]
    omega

omit [Fintype A] in
theorem le_of_credit (h : credit bal dst amount = .ok bal') (x : A) :
    (bal x).toNat ≤ (bal' x).toNat := by
  obtain ⟨t, ht, rfl⟩ := credit_eq_ok.mp h
  by_cases hx : x = dst
  · subst hx
    rw [Function.update_self]
    omega
  · rw [Function.update_of_ne hx]

/-! ### Holders after a write -/

/-- A credited account holds something, -/
theorem counts_of_add {u v : BitVec w} (hpos : 0 < amount.toNat)
    (h : v.toNat = u.toNat + amount.toNat) : counts v = 1 := by
  rw [counts, if_neg]
  rintro rfl
  simp at h
  omega

/-- and a debited one held something and is empty when the debit took all of it. -/
theorem counts_of_sub {u v : BitVec w} (hpos : 0 < amount.toNat)
    (h : v.toNat + amount.toNat = u.toNat) :
    counts u = 1 ∧ counts v + (if u = amount then 1 else 0) = 1 := by
  have hu : u ≠ 0#w := by
    rintro rfl
    simp at h
    omega
  refine ⟨if_neg hu, ?_⟩
  by_cases hv : v = 0#w
  · subst hv
    have heq : u = amount := BitVec.eq_of_toNat_eq (by simpa using h.symm)
    simp [counts, heq]
  · have hne : u ≠ amount := by
      rintro rfl
      exact hv (BitVec.eq_of_toNat_eq (by simpa using h))
    simp [counts, hv, hne]

theorem holders_credit (hpos : 0 < amount.toNat) (h : credit bal dst amount = .ok bal') :
    holders bal' = holders bal + if bal dst = 0#w then 1 else 0 := by
  obtain ⟨t, ht, rfl⟩ := credit_eq_ok.mp h
  have hupd := holders_update bal dst t
  rw [counts_of_add hpos ht, counts] at hupd
  split at hupd <;> simp_all

theorem holders_debit (hpos : 0 < amount.toNat) (h : debit bal src amount = .ok bal') :
    holders bal' + (if bal src = amount then 1 else 0) = holders bal := by
  obtain ⟨f, hf, rfl⟩ := debit_eq_ok.mp h
  have hupd := holders_update bal src f
  obtain ⟨hold, hnew⟩ := counts_of_sub hpos hf
  omega

theorem holders_move (hne : dst ≠ src) (hpos : 0 < amount.toNat)
    (h : move bal src dst amount = .ok bal') :
    holders bal' + (if bal src = amount then 1 else 0) =
      holders bal + if bal dst = 0#w then 1 else 0 := by
  obtain ⟨f, t, hf, ht, rfl⟩ := (move_eq_ok hne).mp h
  have hsrc := holders_debit hpos (debit_eq_ok.mpr ⟨f, hf, rfl⟩)
  have hcredit : credit (Function.update bal src f) dst amount =
      .ok (Function.update (Function.update bal src f) dst t) :=
    credit_eq_ok.mpr ⟨t, by rw [Function.update_of_ne hne, ht], rfl⟩
  have hdst := holders_credit hpos hcredit
  rw [Function.update_of_ne hne] at hdst
  omega

/-! ### Effects -/

/-- What a transaction does to a ledger. -/
inductive Effect (A : Type) (w : Nat)
  | keep
  | move (src dst : A) (amount : BitVec w)
  | issue (dst : A) (amount : BitVec w)
  | retire (src : A) (amount : BitVec w)

namespace Effect

def supply (S : BitVec w) : Effect A w → Exec (BitVec w)
  | .issue _ amount => add S amount
  | .retire _ amount => sub S amount
  | _ => .ok S

def balances (bal : A → BitVec w) : Effect A w → Exec (A → BitVec w)
  | .keep => .ok bal
  | .move src dst amount => Ledger.move bal src dst amount
  | .issue dst amount => credit bal dst amount
  | .retire src amount => debit bal src amount

/-- The debit of an effect is covered by the balance it is taken from. -/
def Covered (bal : A → BitVec w) : Effect A w → Prop
  | .move src _ amount => amount ≤ bal src
  | .retire src amount => amount ≤ bal src
  | _ => True

variable {S S' : BitVec w} {e : Effect A w}

/-- What the effect adds to the sum of the balances, and what it takes from it. -/
def issued : Effect A w → Nat
  | .issue _ amount => amount.toNat
  | _ => 0

def retired : Effect A w → Nat
  | .retire _ amount => amount.toNat
  | _ => 0

omit [Fintype A] [DecidableEq A] in
theorem supply_eq_ok (h : e.supply S = .ok S') : S'.toNat + e.retired = S.toNat + e.issued := by
  cases e with
  | keep => cases h; rfl
  | move src dst amount => cases h; rfl
  | issue dst amount => exact add_eq_ok.mp h
  | retire src amount => exact sub_eq_ok.mp h

/-- An effect changes the sum of the balances by what it issues and retires. -/
theorem total_balances (h : e.balances bal = .ok bal') :
    total bal' + e.retired = total bal + e.issued := by
  cases e with
  | keep => cases h; rfl
  | move src dst amount =>
    by_cases hne : dst = src
    · subst hne
      rw [balances, move_self] at h
      cases h
      rfl
    · obtain ⟨f, t, hf, ht, rfl⟩ := (move_eq_ok hne).mp h
      have h1 := total_update bal src f
      have h2 := total_update (Function.update bal src f) dst t
      rw [Function.update_of_ne hne] at h2
      simp only [retired, issued]
      omega
  | issue dst amount =>
    obtain ⟨t, ht, rfl⟩ := credit_eq_ok.mp h
    have h1 := total_update bal dst t
    simp only [retired, issued]
    omega
  | retire src amount =>
    obtain ⟨f, hf, rfl⟩ := debit_eq_ok.mp h
    have h1 := total_update bal src f
    simp only [retired, issued]
    omega

/-- **An effect keeps the supply equal to the sum of the balances.** -/
theorem conserved (hsum : S.toNat = total bal) (hS : e.supply S = .ok S')
    (hbal : e.balances bal = .ok bal') : S'.toNat = total bal' := by
  have h1 := supply_eq_ok hS
  have h2 := total_balances hbal
  omega

/-- **No credit overflows and no covered debit underflows**: when the supply is the
    sum and takes the effect, so do the balances. -/
theorem balances_isOk (hsum : S.toNat = total bal) (hcov : e.Covered bal)
    (hS : e.supply S = .ok S') : ∃ bal', e.balances bal = .ok bal' := by
  cases e with
  | keep => exact ⟨bal, rfl⟩
  | move src dst amount =>
    by_cases hne : dst = src
    · subst hne
      exact ⟨bal, move_self⟩
    · have hle := BitVec.le_def.mp hcov
      have htwo := add_le_total bal hne
      have hlt := S.isLt
      exact ⟨_, (move_eq_ok hne).mpr ⟨_, _, toNat_sub_add hle,
        BitVec.toNat_add_of_lt (by omega), rfl⟩⟩
  | issue dst amount =>
    have hS' := add_eq_ok.mp hS
    have hle := toNat_le_total bal dst
    have hlt := S'.isLt
    exact ⟨_, credit_eq_ok.mpr ⟨_, BitVec.toNat_add_of_lt (by omega), rfl⟩⟩
  | retire src amount =>
    have hle := BitVec.le_def.mp hcov
    exact ⟨_, debit_eq_ok.mpr ⟨_, toNat_sub_add hle, rfl⟩⟩

omit [DecidableEq A] in
/-- The supply covers what a covered effect retires. -/
theorem supply_isOk (hsum : S.toNat = total bal) (hcov : e.Covered bal) (hiss : e.issued = 0) :
    ∃ S', e.supply S = .ok S' := by
  cases e with
  | keep => exact ⟨S, rfl⟩
  | move src dst amount => exact ⟨S, rfl⟩
  | issue dst amount =>
    have hlt := S.isLt
    simp only [issued] at hiss
    exact ⟨_, add_of_lt (by omega)⟩
  | retire src amount =>
    have hle := BitVec.le_def.mp hcov
    have hsrc := toNat_le_total bal src
    exact ⟨_, sub_of_le (by omega)⟩

end Effect

end CambrianLang.Ledger
