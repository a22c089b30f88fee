/-
  **Recursion with a bounded depth.**

  The members of a family call each other. What one of them does with its argument is a
  tree: it ends with a value or a failure, or calls a member and goes on with what the
  call gives; a call that fails ends it with the same failure. `Evaluates` runs the trees
  without a bound and counts how deep the calls are nested, `unfold n` runs them with `n`
  levels and fails where they do not suffice. `unfold_of_evaluates` and
  `unfold_exhausted` say that the two agree below the bound and that nothing but the
  failure comes out at it.
-/
import Mathlib.Order.Nat

namespace CambrianLang.CallTrees

variable {ι A R E : Type}

/-- What a member does: it ends, or calls a member and goes on. -/
inductive Tree (ι A R E : Type) where
  | done (res : Except E R)
  | call (i : ι) (a : A) (next : R → Tree ι A R E)

namespace Tree

def bind : Tree ι A R E → (R → Tree ι A R E) → Tree ι A R E
  | .done (.ok r), k => k r
  | .done (.error e), _ => .done (.error e)
  | .call i a next, k => .call i a fun r => (next r).bind k

/-- The results of `step` over the elements, from left to right. -/
def fold {B : Type} (step : R → B → Tree ι A R E) : List B → R → Tree ι A R E
  | [], r => .done (.ok r)
  | b :: bs, r => (step r b).bind (fold step bs)

/-- Every call answered by `f`. -/
def run (f : ι → A → Except E R) : Tree ι A R E → Except E R
  | .done res => res
  | .call i a next => (f i a).bind fun r => (next r).run f

variable (f : ι → A → Except E R)

theorem run_call (i : ι) (a : A) (next : R → Tree ι A R E) :
    (call i a next).run f = (f i a).bind fun r => (next r).run f := rfl

theorem run_bind (t : Tree ι A R E) (k : R → Tree ι A R E) :
    (t.bind k).run f = (t.run f).bind fun r => (k r).run f := by
  induction t with
  | done res =>
    cases res with
    | ok r => rfl
    | error e => rfl
  | call i a next ih =>
    rw [bind, run_call, run_call]
    cases f i a with
    | ok r => exact ih r
    | error e => rfl

theorem run_fold {B : Type} (step : R → B → Tree ι A R E) (bs : List B) (r : R) :
    (fold step bs r).run f = bs.foldlM (fun r b => (step r b).run f) r := by
  induction bs generalizing r with
  | nil => rfl
  | cons b bs ih =>
    rw [fold, run_bind, List.foldlM_cons]
    exact congrArg (Except.bind ((step r b).run f)) (funext ih)

end Tree

/-- The unbounded evaluation of a tree, with the depth of the calls in it. -/
inductive Evaluates (program : ι → A → Tree ι A R E) : Tree ι A R E → Nat → Except E R → Prop
  | done (res : Except E R) : Evaluates program (.done res) 0 res
  | failed {i : ι} {a : A} {next : R → Tree ι A R E} {d : Nat} {e : E}
      (hcall : Evaluates program (program i a) d (.error e)) :
      Evaluates program (.call i a next) (d + 1) (.error e)
  | returned {i : ι} {a : A} {next : R → Tree ι A R E} {d d' : Nat} {r : R} {res : Except E R}
      (hcall : Evaluates program (program i a) d (.ok r))
      (hnext : Evaluates program (next r) d' res) :
      Evaluates program (.call i a next) (max (d + 1) d') res

/-- The members with `n` levels of calls; where they do not suffice the result is `out`. -/
def unfold (program : ι → A → Tree ι A R E) (out : E) : Nat → ι → A → Except E R
  | 0, _, _ => .error out
  | n + 1, i, a => (program i a).run (unfold program out n)

variable {program : ι → A → Tree ι A R E} {out : E} {t : Tree ι A R E} {i : ι} {a : A}

theorem run_unfold_of_evaluates {d : Nat} {res : Except E R} (h : Evaluates program t d res) :
    ∀ n, d ≤ n → t.run (unfold program out n) = res := by
  induction h with
  | done res => exact fun _ _ => rfl
  | failed _ ih =>
    intro n hn
    cases n with
    | zero => cases hn
    | succ n =>
      rw [Tree.run_call, unfold, ih n (Nat.le_of_succ_le_succ hn)]
      rfl
  | returned _ _ ihcall ihnext =>
    intro n hn
    have hright := ihnext n (le_trans (le_max_right _ _) hn)
    have hleft := le_trans (le_max_left _ _) hn
    cases n with
    | zero => cases hleft
    | succ n =>
      rw [Tree.run_call, unfold, ihcall n (Nat.le_of_succ_le_succ hleft)]
      exact hright

/-- **Below the bound** the unfolding is the evaluation. -/
theorem unfold_of_evaluates {d n : Nat} {res : Except E R}
    (h : Evaluates program (program i a) d res) (hn : d < n) : unfold program out n i a = res := by
  cases n with
  | zero => cases hn
  | succ n => exact run_unfold_of_evaluates h n (Nat.lt_succ_iff.mp hn)

/-- A tree is evaluated with the levels there are, or it is not and fails with `out`. -/
theorem run_unfold_cases (n : Nat) (t : Tree ι A R E) :
    (∃ d ≤ n, Evaluates program t d (t.run (unfold program out n))) ∨
      t.run (unfold program out n) = .error out := by
  induction n generalizing t with
  | zero =>
    cases t with
    | done res => exact Or.inl ⟨0, le_rfl, .done res⟩
    | call i a next => exact Or.inr rfl
  | succ n ih =>
    induction t with
    | done res => exact Or.inl ⟨0, Nat.zero_le _, .done res⟩
    | call i a next ihnext =>
      rw [Tree.run_call, unfold]
      rcases ih (program i a) with ⟨d, hd, hcall⟩ | hout
      · cases hres : (program i a).run (unfold program out n) with
        | error e =>
          rw [hres] at hcall
          exact Or.inl ⟨d + 1, Nat.succ_le_succ hd, .failed hcall⟩
        | ok r =>
          rw [hres] at hcall
          rcases ihnext r with ⟨d', hd', hnext⟩ | hout
          · exact Or.inl ⟨max (d + 1) d', max_le (Nat.succ_le_succ hd) hd', .returned hcall hnext⟩
          · exact Or.inr hout
      · rw [hout]
        exact Or.inr rfl

/-- **At the bound** nothing but the failure comes out. -/
theorem unfold_exhausted {n : Nat}
    (h : ∀ d < n, ∀ res, ¬ Evaluates program (program i a) d res) :
    unfold program out n i a = .error out := by
  cases n with
  | zero => rfl
  | succ n =>
    rcases @run_unfold_cases _ _ _ _ program out n (program i a) with
      ⟨d, hd, heval⟩ | hout
    · exact absurd heval (h d (Nat.lt_succ_of_le hd) _)
    · exact hout

end CambrianLang.CallTrees
