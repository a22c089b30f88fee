/-
  **Transactions that revert.**

  A call either returns a value or reverts with a reason and no effect, so it is
  an `Except Revert`.  `CheckedWord` says when an operation on words has an exact
  result; here each operation is given its reason to revert, with the rules to
  take a successful call apart (`bind_eq_ok`, `add_eq_ok`, …) and to put one
  together (`add_of_lt`, …).
-/
import CambrianLang.Lib.CheckedWord

namespace CambrianLang.Trapping

open CheckedWord

/-- Why a call reverts: one of the two arithmetic panics, or a code it throws. -/
inductive Revert
  | overflow
  | divisionByZero
  | thrown (code : Nat)
  deriving DecidableEq

abbrev Exec := Except Revert

variable {α β : Type} {w : Nat} {x y z : BitVec w}

-- Proved by `simp` and not by `rfl`: as definitional equalities these would leave the kernel
-- to compare the operations of the program by evaluating them.
@[simp] theorem ok_bind (a : α) (f : α → Exec β) : (Except.ok a >>= f : Exec β) = f a := by
  simp only [bind, Except.bind]

@[simp] theorem error_bind (e : Revert) (f : α → Exec β) :
    (Except.error e >>= f : Exec β) = .error e := by
  simp only [bind, Except.bind]

@[simp] theorem pure_eq_ok (a : α) : (pure a : Exec α) = .ok a := by
  simp only [pure, Except.pure]

/-- A sequence returns when its first part does and the rest does from there. -/
theorem bind_eq_ok {m : Exec α} {f : α → Exec β} {b : β} :
    m >>= f = .ok b ↔ ∃ a, m = .ok a ∧ f a = .ok b := by
  cases m with
  | error e => simp
  | ok a => simp

/-- `where cond : throw code`. -/
def require (p : Prop) [Decidable p] (code : Nat) : Exec Unit :=
  if p then .ok () else .error (.thrown code)

@[simp] theorem require_eq_ok {p : Prop} [Decidable p] {code : Nat} {u : Unit} :
    require p code = .ok u ↔ p := by
  unfold require
  split <;> simp_all

theorem require_of {p : Prop} [Decidable p] {code : Nat} (h : p) : require p code = .ok () :=
  if_pos h

theorem require_of_not {p : Prop} [Decidable p] {code : Nat} (h : ¬p) :
    require p code = .error (.thrown code) :=
  if_neg h

/-! ### Arithmetic -/

/-- The value of an operation that has one, else the panic. -/
def orPanic (e : Revert) : Option α → Exec α
  | some a => .ok a
  | none => .error e

theorem orPanic_eq_ok {e : Revert} {o : Option α} {a : α} :
    orPanic e o = .ok a ↔ o = some a := by
  cases o with
  | none => simp [orPanic]
  | some b => simp [orPanic]

def add (x y : BitVec w) : Exec (BitVec w) := orPanic .overflow (cadd x y)

def sub (x y : BitVec w) : Exec (BitVec w) := orPanic .overflow (csub x y)

def mul (x y : BitVec w) : Exec (BitVec w) := orPanic .overflow (cmul x y)

def div (x y : BitVec w) : Exec (BitVec w) := orPanic .divisionByZero (cdiv x y)

def mod (x y : BitVec w) : Exec (BitVec w) := orPanic .divisionByZero (cmod x y)

theorem add_eq_ok : add x y = .ok z ↔ z.toNat = x.toNat + y.toNat := by
  rw [add, orPanic_eq_ok, cadd_eq, exact_eq_some]

theorem sub_eq_ok : sub x y = .ok z ↔ z.toNat + y.toNat = x.toNat := by
  rw [sub, orPanic_eq_ok]
  by_cases h : y.toNat ≤ x.toNat
  · rw [csub_eq_of_le h, exact_eq_some]
    omega
  · rw [csub_eq_none.mpr (Nat.not_le.mp h)]
    constructor
    · intro hz
      cases hz
    · intro hz
      omega

theorem mul_eq_ok : mul x y = .ok z ↔ z.toNat = x.toNat * y.toNat := by
  rw [mul, orPanic_eq_ok, cmul_eq, exact_eq_some]

theorem div_eq_ok : div x y = .ok z ↔ 0 < y.toNat ∧ z.toNat = x.toNat / y.toNat := by
  rw [div, orPanic_eq_ok]
  by_cases h : y = 0#w
  · subst h
    simp
  · rw [cdiv_eq h, exact_eq_some]
    simp [toNat_pos h]

theorem mod_eq_ok : mod x y = .ok z ↔ 0 < y.toNat ∧ z.toNat = x.toNat % y.toNat := by
  rw [mod, orPanic_eq_ok]
  by_cases h : y = 0#w
  · subst h
    simp
  · rw [cmod_eq h, exact_eq_some]
    simp [toNat_pos h]

theorem add_of_lt (h : x.toNat + y.toNat < 2 ^ w) : add x y = .ok (x + y) :=
  add_eq_ok.mpr (BitVec.toNat_add_of_lt h)

theorem sub_of_le (h : y.toNat ≤ x.toNat) : sub x y = .ok (x - y) := by
  apply sub_eq_ok.mpr
  rw [BitVec.toNat_sub_of_le (BitVec.le_def.mpr h), Nat.sub_add_cancel h]

theorem toNat_sub_add (h : y.toNat ≤ x.toNat) : (x - y).toNat + y.toNat = x.toNat :=
  sub_eq_ok.mp (sub_of_le h)

theorem mul_of_lt (h : x.toNat * y.toNat < 2 ^ w) : mul x y = .ok (x * y) :=
  mul_eq_ok.mpr (BitVec.toNat_mul_of_lt h)

theorem div_of_pos (h : 0 < y.toNat) : div x y = .ok (x / y) :=
  div_eq_ok.mpr ⟨h, BitVec.toNat_udiv⟩

theorem mod_of_pos (h : 0 < y.toNat) : mod x y = .ok (x % y) :=
  mod_eq_ok.mpr ⟨h, BitVec.toNat_umod⟩

theorem add_of_le (h : 2 ^ w ≤ x.toNat + y.toNat) : add x y = .error .overflow := by
  rw [add, cadd_eq, exact_of_le h]
  rfl

@[simp] theorem div_zero (x : BitVec w) : div x 0#w = .error .divisionByZero := by
  rw [div, cdiv_zero]
  rfl

/-! ### Runs of transactions -/

section Runs

variable {σ μ : Type} (call : σ → μ → Exec σ)

/-- A transaction: the state the call returns, or the state before when it reverts. -/
def step (s : σ) (m : μ) : σ :=
  match call s m with
  | .ok s' => s'
  | .error _ => s

/-- A sequence of transactions. -/
def run (s : σ) (ms : List μ) : σ := ms.foldl (step call) s

variable {call} {s s' : σ} {m : μ} {ms ms' : List μ}

theorem step_of_ok (h : call s m = .ok s') : step call s m = s' := by
  rw [step, h]

theorem step_of_error {e : Revert} (h : call s m = .error e) : step call s m = s := by
  rw [step, h]

/-- A transaction either returned or left the state as it was. -/
theorem step_cases (call : σ → μ → Exec σ) (s : σ) (m : μ) :
    call s m = .ok (step call s m) ∨ step call s m = s := by
  cases h : call s m with
  | ok s' => exact Or.inl (by rw [step_of_ok h])
  | error e => exact Or.inr (step_of_error h)

@[simp] theorem run_nil : run call s [] = s := rfl

@[simp] theorem run_cons : run call s (m :: ms) = run call (step call s m) ms := rfl

/-- What every successful call preserves, every run preserves. -/
theorem run_induction {P : σ → Prop} (hstep : ∀ s m s', P s → call s m = .ok s' → P s')
    (h : P s) : P (run call s ms) := by
  induction ms generalizing s with
  | nil => exact h
  | cons m ms ih =>
    rw [run_cons]
    apply ih
    rcases step_cases call s m with hok | hsame
    · exact hstep s m _ h hok
    · rw [hsame]
      exact h

end Runs

end CambrianLang.Trapping
